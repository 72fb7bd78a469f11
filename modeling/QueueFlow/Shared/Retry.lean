-- SUMMARY: The backoff policy of retry.ts: exponential, capped, with jitter added on top.
import Mathlib.Data.Rat.Floor

namespace QueueFlow

/-- What `Math.random()` may return. -/
abbrev Random := { r : ℚ // 0 ≤ r ∧ r < 1 }

/-- The settings that the modelled processes read from their environment. -/
structure Config where
  /-- FENCING. -/
  fencing : Bool
  /-- RETRY_BASE_MS. -/
  baseMs : Nat
  /-- RETRY_MAX_MS. -/
  maxMs : Nat
  /-- ORPHAN_AGE_S, never below five. -/
  orphanAgeS : Nat
  orphanAgeS_ge : 5 ≤ orphanAgeS

/-- `Math.round`, halves rounded up. -/
def mathRound (x : ℚ) : Nat := (x + 1 / 2).floor.toNat

def JITTER : ℚ := 3 / 10

/-- How long to wait before the next attempt, in milliseconds. -/
def nextDelayMs (cfg : Config) (attempts : Nat) (random : Random) : Nat :=
  let base := min (2 ^ attempts * cfg.baseMs) cfg.maxMs
  mathRound (base + random.val * base * JITTER)

end QueueFlow

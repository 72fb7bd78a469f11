-- SUMMARY: Entries of Redis are canonical ids of existing rows, as long as replays spell their ids canonically.
import QueueFlow.Ids.Circulation

/-!
# Canonical ids

Postgres compares ids as values and Redis compares them as texts. The two agree while every
text in circulation is the output of Postgres. A replay pushes the path parameter, which
Postgres has accepted in whatever spelling it came.
-/

namespace QueueFlow

open Transition

/-- The text is in the pending list, in a processing list or in the delayed set. -/
def State.Entry (s : State) (t : Text) : Prop :=
  t ∈ s.redis.pending ∨ (∃ w, (w, t) ∈ s.redis.processing) ∨ ∃ score, (t, score) ∈ s.redis.delayed

/-- A replay that finds its row dead spells the id as Postgres does. -/
def CanonicalReplay (s : State) : Act → Prop
  | .api (.replay id) g => ∀ job ∈ Act.replays? s (.api (.replay id) g), id = uuidOut job
  | _ => True

instance (s : State) (a : Act) : Decidable (CanonicalReplay s a) := by
  induction a using Act.casesOn with
  | api a =>
      induction a using Api.casesOn with
      | replay => exact inferInstanceAs (Decidable (∀ _ ∈ Act.replays? _ _, _ = _))
      | _ => exact .isTrue trivial
  | _ => exact .isTrue trivial

section

variable {cfg : Config} {s s' : State} {a : Act} {t : Text} {job : Uuid} {e' : Exec}

/-- Rows are inserted under ids that `randomUUID` generated. -/
theorem random_of_step (lease : LeaseWf cfg s) (h : step cfg s a = some s') (known : s'.Known job) :
    s.Known job ∨ job.isRandom = true := by
  obtain ⟨r', hrow'⟩ := known
  rcases row_cases lease h hrow' with ⟨key, g, rfl, hnone, -⟩ | ⟨r, hrow, -⟩
  · obtain ⟨-, h⟩ := Option.ite_none_right_eq_some.mp h
    cases handle_cases h with
    | inserted key generated _ hrandom hrow =>
        simp only [State.setApi_db, State.withDb_db] at hrow'
        rw [Db.row_insertJob hrow] at hrow'
        split at hrow'
        · rename_i hjob
          exact .inr (hjob ▸ hrandom)
        · exact .inl ⟨r', hrow'⟩
    | turned | answered => exact .inl ⟨r', hrow'⟩
    | replayed id u r hpc | pushed req id hpc => cases hpc
  · exact .inl ⟨r, hrow⟩

/-- Only a worker that takes an entry decides to discard it. -/
theorem discard_of_step (h : step cfg s a = some s') (he' : e' ∈ s'.execs) (hpc : e'.pc = .discard) :
    e' ∈ s.execs ∨ e'.id ∈ s.redis.pending ∧ isUuid e'.id = false := by
  have hswap {e : Exec} {pc : ExecPc} (hmem : e' ∈ Bag.swap s.execs e { e with pc })
      (hne : pc ≠ .discard) : e' ∈ s.execs := by
    rcases Bag.mem_of_mem_swap hmem with rfl | hmem
    · exact absurd hpc hne
    · exact hmem
  have howning {pc : ExecPc} {hold : Holding} (hphase : pc.phase = .owning hold) : pc ≠ .discard := by
    rintro rfl
    cases hphase
  rcases exec_origin h he' with hmem | ⟨w, rest, -, hpending, -, htaken⟩ |
    ⟨e, o, -, -, h⟩ | ⟨e, took, message, random, -, -, h⟩
  · exact .inl hmem
  · refine .inr ⟨by simp [hpending], ?_⟩
    rw [htaken] at hpc
    split at hpc
    · cases hpc
    · rename_i hid
      simpa using hid
  · left
    cases processOne_cases h with
    | letGo | rejected => exact List.mem_of_mem_erase he'
    | work hold pc _ _ hphase => exact hswap he' (howning hphase)
    | found | missing | notClaimable | claimed | lock | unowned | insert | settled | fenced | buried
    | parked | zadded => exact hswap he' nofun
  · left
    cases fails_cases h with
    | lost | released | claimed | buried | parked | zadded => exact List.mem_of_mem_erase he'
    | caught hold pc _ hphase | settled hold _ pc _ _ hphase => exact hswap he' (howning hphase)

/-- What circulates are the canonical texts of existing rows, under ids that pass the test. -/
structure CanonicalWf (s : State) : Prop where
  texts : ∀ t, s.Circulates t → ∃ job, t = uuidOut job ∧ s.Known job
  ids : ∀ job, s.Known job → job.isRandom = true
  accepted : ∀ e ∈ s.execs, e.pc ≠ .discard

namespace CanonicalWf

theorem init : CanonicalWf .init where
  texts t ht := by
    cases ht with
    | pending h | listed w h | delayed score h | promoting σ h | pushing x h => cases h
  ids job known := by
    obtain ⟨r, hrow⟩ := known
    cases hrow
  accepted := nofun

theorem isUuid_of_circulates (wf : CanonicalWf s) (ht : s.Circulates t) : isUuid t = true := by
  obtain ⟨job, rfl, known⟩ := wf.texts t ht
  exact isUuid_of_isRandom (wf.ids job known)

theorem step (wf : CanonicalWf s) (lease : LeaseWf cfg s) (holding : HoldingWf s) (sweep : SweepWf s)
    (hok : CanonicalReplay s a) (h : QueueFlow.step cfg s a = some s') : CanonicalWf s' where
  texts t ht := by
    rcases circulates_of_step holding sweep h ht with ht | hnew | ⟨g, job, rfl, hreplay⟩
    · obtain ⟨job, rfl, known⟩ := wf.texts t ht
      exact ⟨job, rfl, known.step h⟩
    · exact hnew
    · obtain ⟨-, -, -, -, r, hrow, -⟩ := replays?_eq_some.mp hreplay
      exact ⟨job, hok job hreplay, State.Known.step ⟨r, hrow⟩ h⟩
  ids job known := (random_of_step lease h known).elim (wf.ids job) id
  accepted e' he' hpc := by
    rcases discard_of_step h he' hpc with hmem | ⟨hpending, hid⟩
    · exact wf.accepted e' hmem hpc
    · rw [wf.isUuid_of_circulates (.pending hpending)] at hid
      cases hid

end CanonicalWf

/-- In every run in which replays spell their ids canonically, every entry of Redis is the canonical
text of the id of an existing row; the worker's test accepts it, nothing is discarded, and it equals
the text of a row's id exactly if Postgres reads that id from it. -/
theorem entries_canonical (hrun : Reaches cfg CanonicalReplay s) :
    (∀ t, s.Entry t → (∃ job r, s.db.row job = some r ∧ t = uuidOut job) ∧ isUuid t = true ∧
      ∀ job, t = uuidOut job ↔ uuidIn t = some job) ∧ ∀ e ∈ s.execs, e.pc ≠ .discard := by
  have hwf : (LeaseWf cfg s ∧ HoldingWf s) ∧ SweepWf s ∧ CanonicalWf s := by
    refine hrun.invariant (P := fun s => (LeaseWf cfg s ∧ HoldingWf s) ∧ SweepWf s ∧ CanonicalWf s)
      ⟨⟨.init, .init⟩, .init, .init⟩ ?_
    rintro t a u ⟨⟨lease, holding⟩, sweep, wf⟩ hok h
    exact ⟨⟨lease.step h, holding.step lease h⟩, sweep.step h, wf.step lease holding sweep hok h⟩
  obtain ⟨-, -, wf⟩ := hwf
  refine ⟨fun t hentry => ?_, wf.accepted⟩
  have ht : s.Circulates t := by
    rcases hentry with h | ⟨w, h⟩ | ⟨score, h⟩
    · exact .pending h
    · exact .listed w h
    · exact .delayed score h
  obtain ⟨job, heq, r, hrow⟩ := wf.texts t ht
  refine ⟨⟨job, r, hrow, heq⟩, wf.isUuid_of_circulates ht, fun u => ?_⟩
  subst heq
  rw [uuidIn_uuidOut, Option.some.injEq]
  exact ⟨uuidOut_inj, congrArg uuidOut⟩

end

/-! ## Spellings -/

open Script in
/-- A dead job is replayed under its canonical id. -/
theorem entries_canonical_replayed : ∃ s, Reaches defaults CanonicalReplay s ∧
    s.Entry (uuidOut (job 1)) ∧ isUuid (uuidOut (job 1)) = true := by
  have hrun : ∃ s, Reaches defaults CanonicalReplay s ∧ s.redis.pending = [uuidOut (job 1)] :=
    exists_run_of_play (start ['a'] ++ [.act .startSched] ++ submit (job 1) ++ failsOut ['a'] ++
      replay (uuidOut (job 1)) (job 2)) (by decide +kernel)
  obtain ⟨s, hs, hpending⟩ := hrun
  have hentry : s.Entry (uuidOut (job 1)) := .inl (by simp [hpending])
  exact ⟨s, hs, hentry, ((entries_canonical hs).1 _ hentry).2.1⟩

open Script in
/-- A dead job is replayed under its id without hyphens, which Postgres reads and the worker does
not accept. -/
theorem replay_pushes_spelling : ∃ s, Reaches defaults always s ∧
    ∃ t ∈ s.redis.pending, uuidIn t = some (job 1) ∧ t ≠ uuidOut (job 1) ∧ isUuid t = false :=
  exists_run_of_play (start ['a'] ++ [.act .startSched] ++ submit (job 1) ++ failsOut ['a'] ++
    replay ((uuidOut (job 1)).filter (· ≠ '-')) (job 2)) (by decide +kernel)

end QueueFlow

-- SUMMARY: The heartbeat of shared/heartbeat.ts as a failure detector: which TTL and interval make it accurate, and how soon it notices a death.
import QueueFlow.Recovery.Fresh
import QueueFlow.Recovery.Stop
import QueueFlow.Script

/-!
# Heartbeats in time

The system lets a heartbeat end at any moment. Here it is kept in time: Redis ends a key `TTL_S` after its
last `SET`, and a running process sets its key every `INTERVAL_MS`, late by at most `lag`, which is what a
blocked event loop and the network may add. A drain deletes the key of a process that is about to exit; it
is taken as a key that ends after the process has.
-/

namespace QueueFlow

open Transition

/-- The settings of `shared/heartbeat.ts`, with the bounds that it puts on them. -/
structure Heartbeat where
  TTL_S : Nat
  INTERVAL_MS : Nat
  hTtl : 1 ≤ TTL_S
  hInterval : 200 ≤ INTERVAL_MS

namespace Heartbeat

/-- `TTL_S` in microseconds. -/
def ttl (hb : Heartbeat) : Nat := hb.TTL_S * 1000000

/-- `INTERVAL_MS` in microseconds. -/
def interval (hb : Heartbeat) : Nat := hb.INTERVAL_MS * 1000

/-- How long `recoverOwnProcessing` waits for an old heartbeat. -/
def waitMs (hb : Heartbeat) : Nat := hb.TTL_S * 1000 + 1000

end Heartbeat

/-- What the clocks of Redis and of the workers say. -/
structure Beats where
  /-- When the key was set last. -/
  beaten : WorkerId → Nat
  /-- `deadline` of `recoverOwnProcessing`, in milliseconds. -/
  deadline : WorkerId → Nat

namespace Beats

def init : Beats := ⟨fun _ => 0, fun _ => 0⟩

@[simps beaten deadline]
def set (b : Beats) (w : WorkerId) (now : Nat) : Beats :=
  { b with beaten := Function.update b.beaten w now }

@[simps beaten deadline]
def await (b : Beats) (w : WorkerId) (deadline : Nat) : Beats :=
  { b with deadline := Function.update b.deadline w deadline }

end Beats

/-- The worker whose heartbeat an action sets. -/
def Act.beats? (s : State) : Act → Option WorkerId
  | .beat w => some w
  | .recoverOwn w _ =>
      match s.procs w with
      | .starting .firstBeat _ => some w
      | _ => none
  | _ => none

/-- The clocks after a step. -/
def Beats.note (hb : Heartbeat) (s : State) (a : Act) (_ : State) (b : Beats) : Beats :=
  match a with
  | .spawn w _ => b.await w (s.dateNow + hb.waitMs)
  | a =>
      match a.beats? s with
      | some w => b.set w s.now
      | none => b

/-- The steps that the clocks allow. -/
def Timely (hb : Heartbeat) (lag : Nat) (p : State × Beats) : Act → Prop
  | .tick d =>
      (∀ w ∈ p.1.redis.alive, p.1.now + d ≤ p.2.beaten w + hb.ttl) ∧
        ∀ w, (p.1.procs w).isRunning = true → p.1.now + d ≤ p.2.beaten w + hb.interval + lag
  | .expire w => p.1.procs w = .gone ∨ p.2.beaten w + hb.ttl ≤ p.1.now
  | .recoverOwn w deadline => deadline = true → p.2.deadline w ≤ p.1.dateNow
  | _ => True

/-- The runs of the system with its clocks. -/
abbrev Keeps (cfg : Config) (hb : Heartbeat) (ok : State × Beats → Act → Prop) (p q : State × Beats) : Prop :=
  Run (observe (step cfg) (Beats.note hb)) ok p q

section

variable {cfg : Config} {hb : Heartbeat} {lag : Nat} {s s' t : State} {a : Act} {b d : Beats} {w : WorkerId}

/-! ## What one step does to heartbeats -/

theorem Beats.beaten_note : (b.note hb s a s').beaten w = if a.beats? s = some w then s.now else b.beaten w := by
  cases hbeats : a.beats? s with
  | none => cases a <;> simp_all [Beats.note, Act.beats?]
  | some w' =>
      have hset : b.note hb s a s' = b.set w' s.now := by
        cases a <;> first | cases hbeats; done | simp only [Beats.note, hbeats]
      rw [hset, Beats.set_beaten, Function.update_apply]
      by_cases hw : w = w'
      · rw [if_pos hw, if_pos (congrArg some hw.symm)]
      · rw [if_neg hw, if_neg fun heq => hw (Option.some.inj heq).symm]

variable (hb s s' a b w) in
theorem Beats.deadline_note : (b.note hb s a s').deadline w = b.deadline w ∨
    ∃ c, a = .spawn w c ∧ (b.note hb s a s').deadline w = s.dateNow + hb.waitMs := by
  have hset : (∃ w', b.note hb s a s' = b.set w' s.now) ∨ b.note hb s a s' = b ∨
      ∃ w' c, a = .spawn w' c ∧ b.note hb s a s' = b.await w' (s.dateNow + hb.waitMs) := by
    cases a with
    | spawn w' c => exact .inr (.inr ⟨w', c, rfl, rfl⟩)
    | _ =>
        simp only [Beats.note]
        split
        · exact .inl ⟨_, rfl⟩
        · exact .inr (.inl rfl)
  rcases hset with ⟨w', heq⟩ | heq | ⟨w', c, rfl, heq⟩ <;> rw [heq]
  · exact .inl rfl
  · exact .inl rfl
  · rw [Beats.await_deadline, Function.update_apply]
    split
    · rename_i hw
      exact .inr ⟨c, by rw [hw], rfl⟩
    · exact .inl rfl

/-- A heartbeat that is there after a step was there before, or the step has set it. -/
theorem mem_alive_of_step (h : step cfg s a = some s') (hw : w ∈ s'.redis.alive) :
    w ∈ s.redis.alive ∨ a.beats? s = some w := by
  have hbeat {w' : WorkerId} (hmem : w ∈ (s.redis.beat w').alive) : w ∈ s.redis.alive ∨ w' = w := by
    rcases List.mem_cons.mp hmem with rfl | hmem
    · exact .inr rfl
    · exact .inl (List.mem_filter.mp hmem).1
  cases a with
  | tick | request | startSched => cases h; exact .inl hw
  | api =>
      obtain ⟨-, h⟩ := Option.ite_none_right_eq_some.mp h
      cases handle_cases h <;> exact .inl hw
  | apiCrash | schedKill =>
      obtain ⟨-, h⟩ := Option.ite_none_right_eq_some.mp h
      cases h
      exact .inl hw
  | spawn =>
      obtain ⟨-, -, rfl⟩ := spawn_cases h
      exact .inl hw
  | recoverOwn w' =>
      cases recoverOwnProcessing_cases h with
      | beat c hp =>
          rcases hbeat hw with hw | rfl
          · exact .inl hw
          · exact .inr (by simp only [Act.beats?, hp])
      | wait | refrain | proceed | nothing | read | reset | moved | done => exact .inl hw
  | beat w' =>
      obtain ⟨-, rfl⟩ := beat_cases h
      exact (hbeat hw).imp_right fun heq => congrArg some heq
  | expire =>
      cases expire_cases h
      exact .inl (List.mem_filter.mp hw).1
  | take =>
      obtain ⟨c, rest, id, -, -, rfl⟩ := take_cases h
      exact .inl hw
  | exec =>
      obtain ⟨-, h⟩ := Option.ite_none_right_eq_some.mp h
      cases processOne_cases h <;> exact .inl hw
  | execFail =>
      obtain ⟨-, h⟩ := Option.ite_none_right_eq_some.mp h
      cases fails_cases h <;> exact .inl hw
  | kill =>
      cases kill_cases h
      exact .inl hw
  | sched =>
      obtain ⟨-, h⟩ := Option.ite_none_right_eq_some.mp h
      cases schedule_cases h <;> exact .inl hw
  | schedFail =>
      obtain ⟨-, h⟩ := Option.ite_none_right_eq_some.mp h
      cases abandonPass_cases h <;> exact .inl hw

theorem mem_alive_of_beats (h : step cfg s a = some s') (hbeats : a.beats? s = some w) :
    w ∈ s'.redis.alive ∧ (s'.procs w).isRunning = true := by
  cases a with
  | beat w' =>
      cases hbeats
      obtain ⟨hrun, rfl⟩ := beat_cases h
      exact ⟨List.mem_cons_self, hrun⟩
  | recoverOwn w' deadline =>
      simp only [Act.beats?] at hbeats
      split at hbeats
      · rename_i c hp
        cases hbeats
        simp only [step, recoverOwnProcessing, hp] at h
        cases h
        exact ⟨List.mem_cons_self, by rw [State.setProc_procs, Function.update_self]; rfl⟩
      · cases hbeats
  | _ => cases hbeats

/-- A process that runs after a step ran before, or has just sent its first beat. -/
theorem running_origin (h : step cfg s a = some s') (hrun : (s'.procs w).isRunning = true) :
    (s.procs w).isRunning = true ∨ a.beats? s = some w := by
  have hupdate {w' : WorkerId} {p : Proc} (hprocs : s'.procs = Function.update s.procs w' p)
      (hp : p.isRunning = false) : (s.procs w).isRunning = true := by
    rw [hprocs, Function.update_apply] at hrun
    split at hrun
    · rw [hp] at hrun
      cases hrun
    · exact hrun
  rcases procs_of_step h with heq | ⟨w', c, rfl, -, heq⟩ | ⟨w', rfl, heq⟩ | ⟨w', deadline, rfl, hmove⟩
  · exact .inl (heq ▸ hrun)
  · exact .inl (hupdate heq rfl)
  · exact .inl (hupdate heq rfl)
  · cases hmove with
    | wait | moved => exact .inl hrun
    | refrain | proceed | nothing | read | reset | done => exact .inl (hupdate rfl rfl)
    | beat c hp =>
        by_cases hw : w = w'
        · subst hw
          exact .inr (by simp only [Act.beats?, hp])
        · rw [State.setProc_procs, Function.update_of_ne hw] at hrun
          exact .inl hrun

/-- A process that starts was starting before, or has just been started. -/
private theorem starting_origin (h : step cfg s a = some s') (hp : (s'.procs w).isStarting = true) :
    (s.procs w).isStarting = true ∨ ∃ c, a = .spawn w c := by
  have hupdate {w' : WorkerId} {p : Proc} (hprocs : s'.procs = Function.update s.procs w' p)
      (hw : (s.procs w').isStarting = true ∨ p.isStarting = false) : (s.procs w).isStarting = true := by
    rw [hprocs, Function.update_apply] at hp
    split at hp
    · rename_i heq
      rw [heq]
      refine hw.resolve_right fun hnot => ?_
      rw [hnot] at hp
      cases hp
    · exact hp
  have hstarting {w' : WorkerId} {pc : StartPc} {c : Nat} (hp : s.procs w' = .starting pc c) {p : Proc} :
      (s.procs w').isStarting = true ∨ p.isStarting = false := .inl (by rw [hp]; rfl)
  rcases procs_of_step h with heq | ⟨w', c, rfl, -, heq⟩ | ⟨w', rfl, heq⟩ | ⟨w', deadline, rfl, hmove⟩
  · exact .inl (heq ▸ hp)
  · by_cases hw : w = w'
    · exact .inr ⟨c, by rw [hw]⟩
    · rw [heq, Function.update_of_ne hw] at hp
      exact .inl hp
  · exact .inl (hupdate heq (.inr rfl))
  · left
    cases hmove with
    | wait | moved => exact hp
    | refrain c hp' | proceed c hp' | nothing c hp' | read c hp' | reset c _ hp' | done c hp' | beat c hp' =>
        exact hupdate rfl (hstarting hp')

/-! ## Runs -/

/-- What the clocks say in every run that they allow. -/
structure BeatsWf (hb : Heartbeat) (lag : Nat) (s : State) (b : Beats) : Prop where
  past : ∀ w, b.beaten w ≤ s.now
  /-- A key is there for `TTL_S` at most. -/
  kept : ∀ w ∈ s.redis.alive, s.now ≤ b.beaten w + hb.ttl
  punctual : ∀ w, (s.procs w).isRunning = true → s.now ≤ b.beaten w + hb.interval + lag
  /-- A process that starts waits for longer than an old key can last. -/
  waits : ∀ w, (s.procs w).isStarting = true → b.beaten w / 1000 + hb.waitMs ≤ b.deadline w

namespace BeatsWf

theorem init : BeatsWf hb lag .init .init where
  past _ := Nat.le_refl _
  kept := by rintro w ⟨⟩
  punctual := by rintro w ⟨⟩
  waits := by rintro w ⟨⟩

theorem step (wf : BeatsWf hb lag s b) (hok : Timely hb lag (s, b) a) (h : QueueFlow.step cfg s a = some s') :
    BeatsWf hb lag s' (b.note hb s a s') where
  past w := by
    have hclock := now_le_of_step h
    rw [Beats.beaten_note]
    split
    · exact hclock
    · exact (wf.past w).trans hclock
  kept w hw := by
    rw [Beats.beaten_note]
    cases a with
    | tick d =>
        cases h
        exact hok.1 w hw
    | _ =>
        rw [now_of_step h (by rintro _ ⟨⟩)]
        split
        · exact Nat.le_add_right ..
        · rename_i hnot
          exact wf.kept w ((mem_alive_of_step h hw).resolve_right hnot)
  punctual w hrun := by
    rw [Beats.beaten_note]
    cases a with
    | tick d =>
        cases h
        exact hok.2 w hrun
    | _ =>
        rw [now_of_step h (by rintro _ ⟨⟩)]
        split
        · omega
        · rename_i hnot
          exact wf.punctual w ((running_origin h hrun).resolve_right hnot)
  waits w hp := by
    have hnot : a.beats? s ≠ some w := by
      intro hbeats
      have hrun := (mem_alive_of_beats h hbeats).2
      cases hproc : s'.procs w with
      | running => rw [hproc] at hp; cases hp
      | fresh | starting | gone => rw [hproc] at hrun; cases hrun
    rw [Beats.beaten_note, if_neg hnot]
    rcases starting_origin h hp with hstarting | ⟨c, rfl⟩
    · have hwaits := wf.waits w hstarting
      rcases Beats.deadline_note hb s s' a b w with heq | ⟨c, rfl, heq⟩
      · rw [heq]
        exact hwaits
      · rw [heq]
        exact Nat.add_le_add_right (Nat.div_le_div_right (wf.past w)) _
    · show _ ≤ Function.update b.deadline w (s.dateNow + hb.waitMs) w
      rw [Function.update_self]
      exact Nat.add_le_add_right (Nat.div_le_div_right (wf.past w)) _

end BeatsWf

/-! ## Accuracy -/

namespace BeatsWf

/-- With a TTL that is long enough, no heartbeat of a running process ends. -/
theorem beating_of_step (wf : BeatsWf hb lag s b) (httl : hb.interval + lag < hb.ttl)
    (hbeating : ∀ w, (s.procs w).isRunning = true → w ∈ s.redis.alive) (hok : Timely hb lag (s, b) a)
    (h : QueueFlow.step cfg s a = some s') (hrun : (s'.procs w).isRunning = true) : w ∈ s'.redis.alive := by
  rcases running_origin h hrun with hrunning | hbeats
  · refine (alive_of_step h (hbeating w hrunning)).resolve_right ?_
    rintro rfl
    rcases hok with hgone | hlate
    · have hgone : s.procs w = .gone := hgone
      rw [hgone] at hrunning
      cases hrunning
    · have hlate : b.beaten w + hb.ttl ≤ s.now := hlate
      have hpunctual := wf.punctual w hrunning
      omega
  · exact (mem_alive_of_beats h hbeats).1

end BeatsWf

private theorem beating_of_keeps {p : State × Beats} (httl : hb.interval + lag < hb.ttl)
    (hrun : Keeps cfg hb (Timely hb lag) (.init, .init) p) :
    BeatsWf hb lag p.1 p.2 ∧ ∀ w, (p.1.procs w).isRunning = true → w ∈ p.1.redis.alive := by
  refine hrun.invariant (P := fun p => BeatsWf hb lag p.1 p.2 ∧
    ∀ w, (p.1.procs w).isRunning = true → w ∈ p.1.redis.alive) ⟨.init, by rintro w ⟨⟩⟩ ?_
  rintro ⟨u, b⟩ a ⟨v, d⟩ ⟨wf, hbeating⟩ hok hstep
  obtain ⟨h, hnote⟩ := observe_cases hstep
  rw [show d = b.note hb u a v from hnote]
  exact ⟨wf.step hok h, fun w hrunning => wf.beating_of_step httl hbeating hok h hrunning⟩

private theorem Keeps.tail {ok : State × Beats → Act → Prop} {p : State × Beats} (a : Act)
    (hrun : Keeps cfg hb ok p (s, b)) (hok : ok (s, b) a) (h : step cfg s a = some s') :
    Keeps cfg hb ok p (s', b.note hb s a s') :=
  Run.tail a hrun hok (by simp only [observe, h, Option.map_some])

/-- A worker has started, and no time has passed. -/
private structure BeatenOnce (s : State) (b : Beats) : Prop where
  now : s.now = 0
  alive : s.redis.alive = [['w']]
  runs : (s.procs ['w']).isRunning = true
  single : ∀ w, (s.procs w).isRunning = true → w = ['w']
  beaten : ∀ w, b.beaten w = 0

private theorem exists_beatenOnce (cfg : Config) (hb : Heartbeat) (lag : Nat) :
    ∃ s b, Keeps cfg hb (Timely hb lag) (.init, .init) (s, b) ∧ BeatenOnce s b := by
  have hstart : Keeps cfg hb (Timely hb lag) (.init, .init) (.init, .init) := .refl
  have hspawned := hstart.tail (.spawn ['w'] 1) trivial rfl
  have hchecked := hspawned.tail (.recoverOwn ['w'] false) (by rintro ⟨⟩) rfl
  have hread := hchecked.tail (.recoverOwn ['w'] false) (by rintro ⟨⟩) rfl
  have hbeaten := hread.tail (.recoverOwn ['w'] false) (by rintro ⟨⟩) rfl
  refine ⟨_, _, hbeaten, rfl, rfl, rfl, fun w hw => ?_, fun w => ?_⟩
  · by_contra hne
    simp [hne, State.init, Proc.isRunning] at hw
  · rw [Beats.beaten_note]
    split <;> rfl

/-- Every running process has its heartbeat, in every run that the clocks allow, just when the TTL is longer
than the interval and the lag together. -/
theorem heartbeat_accurate_iff (cfg : Config) (hb : Heartbeat) (lag : Nat) :
    (∀ s b, Keeps cfg hb (Timely hb lag) (.init, .init) (s, b) →
      ∀ w, (s.procs w).isRunning = true → w ∈ s.redis.alive) ↔ hb.interval + lag < hb.ttl := by
  constructor
  · intro haccurate
    by_contra hshort
    -- The worker beats once, and its next beat comes no sooner than the end of the key.
    obtain ⟨s, b, hrun, hs⟩ := exists_beatenOnce cfg hb lag
    have htick : Timely hb lag (s, b) (.tick hb.ttl) := by
      refine ⟨fun w _ => ?_, fun w _ => ?_⟩ <;> simp only [hs.now, hs.beaten] <;> omega
    have hlater := hrun.tail (.tick hb.ttl) htick rfl
    have hexpire : step cfg { s with now := s.now + hb.ttl } (.expire ['w']) =
        some (({ s with now := s.now + hb.ttl } : State).withRedis (s.redis.expire ['w'])) :=
      if_pos (by rw [hs.alive]; exact List.mem_singleton_self _)
    have hexpired := hlater.tail (.expire ['w']) (.inr (by
      show Beats.beaten _ _ + hb.ttl ≤ s.now + hb.ttl
      rw [Beats.beaten_note, if_neg (by rintro ⟨⟩), hs.beaten, hs.now])) hexpire
    have hin := haccurate _ _ hexpired ['w'] hs.runs
    simp [Redis.expire] at hin
  · intro httl s b hrun
    exact (beating_of_keeps httl hrun).2

/-! ## What follows for the reaper and for a restart -/

private theorem wf_of_keeps {p q : State × Beats} {ok : State × Beats → Act → Prop}
    (hok : ∀ p a, ok p a → Timely hb lag p a) (wf : BeatsWf hb lag p.1 p.2) (hrun : Keeps cfg hb ok p q) :
    BeatsWf hb lag q.1 q.2 := by
  refine hrun.invariant (P := fun p => BeatsWf hb lag p.1 p.2) wf ?_
  rintro ⟨u, b⟩ a ⟨v, d⟩ wf hoka hstep
  obtain ⟨h, hnote⟩ := observe_cases hstep
  rw [show d = b.note hb u a v from hnote]
  exact wf.step (hok _ _ hoka) h

/-- `recoverOwnProcessing` never finds an old heartbeat when its wait is over, so that every process goes on
to its list. -/
theorem own_list_recovered {c : Nat} {deadline : Bool} (hrun : Keeps cfg hb (Timely hb lag) (.init, .init) (s, b))
    (hp : s.procs w = .starting .checkAlive c) (hdeadline : b.deadline w ≤ s.dateNow)
    (h : step cfg s (.recoverOwn w deadline) = some s') : s'.procs w = .starting .readList c := by
  have wf : BeatsWf hb lag s b := wf_of_keeps (fun _ _ h => h) .init hrun
  have hnot : w ∉ s.redis.alive := by
    intro halive
    have hkept := wf.kept w halive
    have hwaits := wf.waits w (by rw [hp]; rfl)
    rw [State.dateNow] at hdeadline
    rw [Heartbeat.ttl] at hkept
    rw [Heartbeat.waitMs] at hwaits
    omega
  simp only [step, recoverOwnProcessing, hp, hnot, if_false] at h
  cases h
  rw [State.setProc_procs, Function.update_self]

/-- A process that is down stays down until it is started. -/
theorem isDown_of_step (h : step cfg s a = some s') (hdown : (s.procs w).isDown = true)
    (hspawn : ∀ c, a ≠ .spawn w c) : (s'.procs w).isDown = true := by
  rcases procs_of_step h with heq | ⟨w', c, rfl, -, heq⟩ | ⟨w', rfl, heq⟩ | ⟨w', deadline, rfl, hmove⟩
  · rw [heq]
    exact hdown
  · have hne : w ≠ w' := by
      rintro rfl
      exact hspawn c rfl
    rw [heq, Function.update_of_ne hne]
    exact hdown
  · rw [heq, Function.update_apply]
    split
    · rfl
    · exact hdown
  · have hne {pc : StartPc} {c : Nat} (hp : s.procs w' = .starting pc c) : w ≠ w' := by
      rintro rfl
      rw [hp] at hdown
      cases hdown
    cases hmove with
    | wait | moved => exact hdown
    | refrain c hp | proceed c hp | nothing c hp | read c hp | reset c _ hp | done c hp | beat c hp =>
        rw [State.setProc_procs, Function.update_of_ne (hne hp)]
        exact hdown

/-- The key of a process that is down is not set. -/
private theorem beaten_of_keeps {p q : State × Beats} (hdown : (p.1.procs w).isDown = true)
    (hrun : Keeps cfg hb (fun p a => Timely hb lag p a ∧ ∀ c, a ≠ .spawn w c) p q) :
    q.2.beaten w = p.2.beaten w := by
  refine (hrun.invariant (P := fun q => (q.1.procs w).isDown = true ∧ q.2.beaten w = p.2.beaten w)
    ⟨hdown, rfl⟩ ?_).2
  rintro ⟨u, b⟩ a ⟨v, d⟩ ⟨hdown, hbeaten⟩ hok hstep
  obtain ⟨h, hnote⟩ := observe_cases hstep
  have hdown' := isDown_of_step h hdown hok.2
  have hnot : a.beats? u ≠ some w := by
    intro hbeats
    have hrunning := (mem_alive_of_beats h hbeats).2
    rw [Proc.not_isRunning_of_isDown hdown'] at hrunning
    cases hrunning
  refine ⟨hdown', ?_⟩
  rw [show d = b.note hb u a v from hnote, Beats.beaten_note, if_neg hnot]
  exact hbeaten

/-- When `TTL_S` have passed since the death of a worker, a scheduler that comes to its list reaps it, unless
a process has been started under its id. -/
theorem death_noticed {keys : List WorkerId} {pick : Pick} {t' : State}
    (hrun : Keeps cfg hb (Timely hb lag) (.init, .init) (s, b)) (hw : w ≠ []) (hdown : (s.procs w).isDown = true)
    (hrun' : Keeps cfg hb (fun p a => Timely hb lag p a ∧ ∀ c, a ≠ .spawn w c) (s, b) (t, d))
    (hlate : s.now + hb.ttl < t.now) (h : step cfg t (.sched (.reapCheck (w :: keys)) pick) = some t') :
    t'.scheds = Bag.swap t.scheds (.reapCheck (w :: keys)) (.reapPeek w keys) := by
  have wf : BeatsWf hb lag s b := wf_of_keeps (fun _ _ h => h) .init hrun
  have wf' : BeatsWf hb lag t d := wf_of_keeps (fun _ _ h => h.1) wf hrun'
  have hnot : w ∉ t.redis.alive := by
    intro halive
    have hkept := wf'.kept w halive
    have hbeaten : d.beaten w = b.beaten w := beaten_of_keeps hdown hrun'
    have hpast := wf.past w
    omega
  obtain ⟨-, h⟩ := Option.ite_none_right_eq_some.mp h
  simp only [schedule, reapDead, hw, hnot, or_false, if_false] at h
  cases h
  rfl

/-- Every worker id is used once, and there is one scheduler. -/
def UsedOnce (s : State) : Act → Prop
  | .spawn w _ => s.procs w = .fresh
  | .startSched => s.scheds = []
  | _ => True

/-- What the clocks allow is what `FreshIds` asks of heartbeats. -/
theorem BeatsWf.freshIds (wf : BeatsWf hb lag s b) (httl : hb.interval + lag < hb.ttl)
    (hok : Timely hb lag (s, b) a) (honce : UsedOnce s a) : FreshIds s a := by
  cases a with
  | expire w =>
      refine Bool.eq_false_iff.mpr fun hrunning => ?_
      rcases hok with hgone | hlate
      · have hgone : s.procs w = .gone := hgone
        rw [hgone] at hrunning
        cases hrunning
      · have hlate : b.beaten w + hb.ttl ≤ s.now := hlate
        have hpunctual := wf.punctual w hrunning
        omega
  | spawn | startSched => exact honce
  | _ => trivial

/-- With a TTL that is long enough, no work of a live process is taken from it: every execution keeps its entry
in its worker's list, and a list that is being reaped belongs to a process that has ended. -/
theorem live_work_kept (httl : hb.interval + lag < hb.ttl)
    (hrun : Keeps cfg hb (fun p a => Timely hb lag p a ∧ UsedOnce p.1 a) (.init, .init) (s, b)) :
    (∀ e ∈ s.execs, (e.worker, e.id) ∈ s.redis.processing) ∧
      ∀ σ ∈ s.scheds, ∀ w, σ.reaping = some w → s.procs w = .gone := by
  have hwf : BeatsWf hb lag s b ∧ FreshWf s ∧ WorldWf s := by
    refine hrun.invariant (P := fun p => BeatsWf hb lag p.1 p.2 ∧ FreshWf p.1 ∧ WorldWf p.1)
      ⟨.init, .init, .init⟩ ?_
    rintro ⟨u, b⟩ a ⟨v, d⟩ ⟨wf, fresh, world⟩ ⟨hok, honce⟩ hstep
    obtain ⟨h, hnote⟩ := observe_cases hstep
    rw [show d = b.note hb u a v from hnote]
    have hfresh := wf.freshIds httl hok honce
    exact ⟨wf.step hok h, fresh.step hfresh h, world.step (fresh.steady hfresh h) h⟩
  obtain ⟨-, -, world⟩ := hwf
  exact ⟨fun e he => world.entry_mem he, world.reaped⟩

end

/-! ## Runs of the first interval -/

/-- The steps before any second beat is due. -/
private def Early (hb : Heartbeat) (lag : Nat) (p : State × Beats) : Act → Prop
  | .tick d => (∀ w ∈ p.1.redis.alive, p.1.now + d ≤ p.2.beaten w + hb.ttl) ∧ p.1.now + d ≤ hb.interval + lag
  | .expire w => p.1.procs w = .gone ∨ p.2.beaten w + hb.ttl ≤ p.1.now
  | .recoverOwn w deadline => deadline = true → p.2.deadline w ≤ p.1.dateNow
  | _ => True

private instance (s : State) (a : Act) : Decidable (UsedOnce s a) := by
  induction a using Act.casesOn with
  | spawn | startSched => exact inferInstanceAs (Decidable (_ = _))
  | _ => exact .isTrue trivial

private instance (hb : Heartbeat) (lag : Nat) (p : State × Beats) (a : Act) : Decidable (Early hb lag p a) := by
  induction a using Act.casesOn with
  | tick => exact inferInstanceAs (Decidable (_ ∧ _))
  | expire => exact inferInstanceAs (Decidable (_ ∨ _))
  | recoverOwn => exact inferInstanceAs (Decidable (_ → _))
  | _ => exact .isTrue trivial

private theorem Early.timely {hb : Heartbeat} {lag : Nat} {p : State × Beats} {a : Act} (h : Early hb lag p a) :
    Timely hb lag p a := by
  cases a with
  | tick d => exact ⟨h.1, fun w _ => h.2.trans (by omega)⟩
  | expire | recoverOwn => exact h
  | _ => trivial

/-- The defaults of the environment. -/
private def thirty : Heartbeat := ⟨30, 10000, by decide, by decide⟩

open Script in
/-- A worker dies with a job, and a scheduler reaps its list, while a second worker is at work. -/
theorem live_work_kept_reaped : ∃ s b, Keeps defaults thirty
      (fun p a => Timely thirty 19000000 p a ∧ UsedOnce p.1 a) (.init, .init) (s, b) ∧
    s.execs.length = 1 ∧ s.scheds.any (fun σ => σ.reaping.isSome) = true ∧
      (∀ e ∈ s.execs, (e.worker, e.id) ∈ s.redis.processing) ∧
        ∀ σ ∈ s.scheds, ∀ w, σ.reaping = some w → s.procs w = .gone := by
  have hplay : ∃ p : State × Beats, Run (observe (step defaults) (Beats.note thirty)) (fun p a =>
      Early thirty 19000000 p a ∧ UsedOnce p.1 a) (.init, .init) p ∧
        (p.1.execs.length = 1 ∧ p.1.scheds.any (fun σ => σ.reaping.isSome) = true) :=
    exists_run_of_perform (f := fun p cue => resolve p.1 cue)
      (start ['a'] ++ start ['b'] ++ submit (job 1) ++ submit (job 2) ++ takes ['a'] 2 ++ takes ['b'] 2 ++
        [.act (.tick 1000000)] ++ dies ['a'] ++ [.act .startSched, .sched .recover, .sched (.visit ['a']),
          .sched (.visit ['b']), .sched .next, .sched .next])
      (by decide +kernel)
  obtain ⟨⟨s, b⟩, hrun, hexecs, hreaping⟩ := hplay
  have hkeeps := hrun.mono (fun _ _ h => And.imp_left Early.timely h)
  exact ⟨s, b, hkeeps, hexecs, hreaping, live_work_kept (by decide) hkeeps⟩

open Script in
/-- A worker dies after a beat, a process is started under its id at once, and the old key ends. -/
theorem own_list_recovered_restarted : ∃ s b s', Keeps defaults thirty (Timely thirty 60000000) (.init, .init) (s, b) ∧
    s.procs ['a'] = .starting .checkAlive 5 ∧ b.deadline ['a'] ≤ s.dateNow ∧
      step defaults s (.recoverOwn ['a'] true) = some s' ∧ s'.procs ['a'] = .starting .readList 5 := by
  have hplay : ∃ p : State × Beats, Run (observe (step defaults) (Beats.note thirty)) (Early thirty 60000000)
      (.init, .init) p ∧ (p.1.procs ['a'] = .starting .checkAlive 5 ∧ p.2.deadline ['a'] ≤ p.1.dateNow ∧
        (step defaults p.1 (.recoverOwn ['a'] true)).isSome = true) :=
    exists_run_of_perform (f := fun p cue => resolve p.1 cue)
      (start ['a'] ++ [.act (.tick 1000000), .act (.kill ['a']), .act (.spawn ['a'] 5), .act (.tick 29000000),
        .act (.recoverOwn ['a'] false), .act (.expire ['a']), .act (.tick 2000000)])
      (by decide +kernel)
  obtain ⟨⟨s, b⟩, hrun, hp, hdeadline, hsome⟩ := hplay
  obtain ⟨s', hs'⟩ := Option.isSome_iff_exists.mp hsome
  have hkeeps := hrun.mono fun _ _ => Early.timely
  exact ⟨s, b, s', hkeeps, hp, hdeadline, hs', own_list_recovered hkeeps hp hdeadline hs'⟩

private instance (w : WorkerId) (a : Act) : Decidable (∀ c, a ≠ .spawn w c) := by
  induction a using Act.casesOn with
  | spawn w' c =>
      by_cases hw : w' = w
      · exact .isFalse fun h => h c (by rw [hw])
      · exact .isTrue fun c' heq => hw (Act.spawn.inj heq).1
  | _ => exact .isTrue (by rintro c ⟨⟩)

open Script in
/-- A worker dies with a job and beats no more, and thirty seconds later the scheduler is at its list. -/
theorem death_noticed_reaped : ∃ s b t d t', Keeps defaults thirty (Timely thirty 60000000) (.init, .init) (s, b) ∧
    (s.procs ['a']).isDown = true ∧
      Keeps defaults thirty (fun p a => Timely thirty 60000000 p a ∧ ∀ c, a ≠ .spawn ['a'] c) (s, b) (t, d) ∧
        step defaults t (.sched (.reapCheck [['a']]) .next) = some t' ∧
          t'.scheds = Bag.swap t.scheds (.reapCheck [['a']]) (.reapPeek ['a'] []) := by
  have hplay : ∃ p q : State × Beats,
      Run (observe (step defaults) (Beats.note thirty)) (Early thirty 60000000) (.init, .init) p ∧
        ((p.1.procs ['a']).isDown = true ∧ p.1.now = 0) ∧
          Run (observe (step defaults) (Beats.note thirty))
            (fun p a => Early thirty 60000000 p a ∧ ∀ c, a ≠ .spawn ['a'] c) p q ∧
              ((step defaults q.1 (.sched (.reapCheck [['a']]) .next)).isSome = true ∧ thirty.ttl < q.1.now) :=
    exists_runs_of_perform (f := fun p cue => resolve p.1 cue)
      (start ['a'] ++ submit (job 1) ++ takes ['a'] 2 ++ [.act (.kill ['a'])])
      [.act .startSched, .act (.tick 30000000), .act (.expire ['a']), .act (.tick 1), .sched .recover,
        .sched (.visit ['a']), .sched .next]
      (by decide +kernel)
  obtain ⟨⟨s, b⟩, ⟨t, d⟩, hrun, ⟨hdown, hnow⟩, hrun', hsome, hlate⟩ := hplay
  have hlate : s.now + thirty.ttl < t.now := by
    rw [show s.now = 0 from hnow, Nat.zero_add]
    exact hlate
  obtain ⟨t', ht'⟩ := Option.isSome_iff_exists.mp hsome
  have hkeeps := hrun.mono fun _ _ => Early.timely
  have hkeeps' := hrun'.mono fun _ _ h => And.imp_left Early.timely h
  exact ⟨s, b, t, d, t', hkeeps, hdown, hkeeps', ht',
    death_noticed hkeeps (by rintro ⟨⟩) hdown hkeeps' hlate ht'⟩

end QueueFlow

-- SUMMARY: Replacements under fresh worker ids, accurate heartbeats and a single scheduler make a steady world.
import QueueFlow.Recovery.World

/-!
# Fresh worker ids

When every process starts under an id that was never used, no process ever starts
with a list to recover, and the reaper never meets one that is still starting. So
the environment that `FreshIds` describes is steady.
-/

namespace QueueFlow

open Transition

/-- A worker id is used once, the heartbeat of a running process does not lapse, and there
is one scheduler. -/
def FreshIds (s : State) : Act → Prop
  | .expire w => (s.procs w).isRunning = false
  | .spawn w _ => s.procs w = .fresh
  | .startSched => s.scheds = []
  | _ => True

instance (s : State) (a : Act) : Decidable (FreshIds s a) := by
  induction a using Act.casesOn with
  | expire | spawn | startSched => exact inferInstanceAs (Decidable (_ = _))
  | _ => exact .isTrue trivial

/-- The process has never had an entry. -/
def Proc.isNewborn : Proc → Bool
  | .fresh => true
  | .starting _ _ => true
  | _ => false

theorem Proc.isNewborn_of_isRunning {p : Proc} (h : p.isRunning = true) : p.isNewborn = false := by
  cases p <;> first | rfl | cases h

structure NewbornWf (s : State) : Prop where
  /-- A process that has not started to take jobs has no entries and no heartbeat. -/
  newborn : ∀ w, (s.procs w).isNewborn = true → s.redis.lrange w = [] ∧ w ∉ s.redis.alive
  starting : ∀ w pc c, s.procs w = .starting pc c → (∀ ids, pc ≠ .reset ids) ∧ pc ≠ .moveAll
  keys : ∀ σ ∈ s.scheds, ∀ w ∈ σ.keys, (s.procs w).isNewborn = false

/-- The lists before a reap pass were before it already, or exist. -/
theorem keys_of_schedMove {s s' : State} {σ : Sched} (h : SchedMove s σ s') :
    s'.scheds = s.scheds.erase σ ∨ ∃ σ', s'.scheds = Bag.swap s.scheds σ σ' ∧
      ∀ w ∈ σ'.keys, w ∈ σ.keys ∨ s.redis.lrange w ≠ [] := by
  cases h with
  | quiet σ' _ _ _ _ hkeys => exact .inr ⟨σ', rfl, hkeys⟩
  | crashed => exact .inl rfl
  | removed | promoted | pushed | swept => exact .inr ⟨_, rfl, nofun⟩
  | check key keys hpc => subst hpc; exact .inr ⟨_, rfl, fun _ hw => .inl hw⟩
  | peek key id keys hpc | junk key id keys hpc | dropped key id keys hpc
  | buried key id keys job hpc | requeued key id keys job hpc | moved key id last keys hpc
  | emptied key id keys hpc =>
      subst hpc
      exact .inr ⟨_, rfl, fun _ hw => .inl hw⟩
  | select key id keys job hpc =>
      subst hpc
      refine .inr ⟨_, rfl, ?_⟩
      rcases judge_cases key id keys (s.db.row job) with
        ⟨heq, -⟩ | ⟨r, -, -, -, ⟨heq, -⟩ | ⟨heq, -⟩⟩ <;> rw [heq] <;>
        exact fun _ hw => .inl hw

namespace NewbornWf

variable {cfg : Config} {s s' : State} {a : Act}

theorem init : NewbornWf .init where
  newborn _ _ := ⟨rfl, nofun⟩
  starting _ _ _ h := by cases h
  keys := nofun

theorem lrange_of_step (wf : NewbornWf s) (h : step cfg s a = some s') {w : WorkerId}
    (hw : (s.procs w).isNewborn = true) : s'.redis.lrange w = [] := by
  refine List.eq_nil_iff_forall_not_mem.mpr fun id hid => ?_
  rcases processing_of_step h (KeyedList.mem_get.mp hid) with hold | rfl
  · have hid : id ∈ s.redis.lrange w := KeyedList.mem_get.mpr hold
    rw [(wf.newborn w hw).1] at hid
    cases hid
  · obtain ⟨c, -, -, hp, -⟩ := take_cases h
    rw [hp] at hw
    cases hw

/-- A step after which the processes and the schedulers are where they were. -/
theorem same (wf : NewbornWf s) (h : step cfg s a = some s') (hprocs : s'.procs = s.procs)
    (halive : ∀ w ∈ s'.redis.alive, w ∈ s.redis.alive ∨ (s.procs w).isRunning = true)
    (hscheds : s'.scheds = s.scheds) : NewbornWf s' where
  newborn w hw := by
    rw [hprocs] at hw
    refine ⟨wf.lrange_of_step h hw, fun hmem => ?_⟩
    rcases halive w hmem with hmem | hrun
    · exact (wf.newborn w hw).2 hmem
    · rw [Proc.isNewborn_of_isRunning hrun] at hw
      cases hw
  starting w pc c hp := wf.starting w pc c (hprocs ▸ hp)
  keys σ hσ w hw := by
    rw [hprocs]
    exact wf.keys σ (hscheds ▸ hσ) w hw

/-- A step of a scheduler. -/
theorem schedMove (wf : NewbornWf s) (h : step cfg s a = some s') {σ : Sched} (hσ : σ ∈ s.scheds)
    (hmove : SchedMove s σ s') (hprocs : s'.procs = s.procs)
    (halive : s'.redis.alive = s.redis.alive) : NewbornWf s' where
  newborn w hw := by
    rw [hprocs] at hw
    exact ⟨wf.lrange_of_step h hw, by rw [halive]; exact (wf.newborn w hw).2⟩
  starting w pc c hp := wf.starting w pc c (hprocs ▸ hp)
  keys τ hτ w hw := by
    rw [hprocs]
    rcases keys_of_schedMove hmove with heq | ⟨σ', heq, hkeys⟩ <;> rw [heq] at hτ
    · exact wf.keys τ (List.mem_of_mem_erase hτ) w hw
    · rcases Bag.mem_of_mem_swap hτ with rfl | hτ
      · rcases hkeys w hw with hw | hne
        · exact wf.keys σ hσ w hw
        · by_contra hnew
          exact hne (wf.newborn w (by simpa using hnew)).1
      · exact wf.keys τ hτ w hw

/-- A process moves on, from a point where it had no entries. -/
theorem setProc (wf : NewbornWf s) (h : step cfg s a = some s') {w : WorkerId} {p : Proc}
    (hprocs : s'.procs = Function.update s.procs w p)
    (hold : p.isNewborn = true → (s.procs w).isNewborn = true)
    (hstarting : ∀ pc c, p = .starting pc c → (∀ ids, pc ≠ .reset ids) ∧ pc ≠ .moveAll)
    (halive : ∀ w' ∈ s'.redis.alive, w' ∈ s.redis.alive ∨ w' = w ∧ p.isNewborn = false)
    (hscheds : s'.scheds = s.scheds) : NewbornWf s' where
  newborn w' hw' := by
    rw [hprocs, Function.update_apply] at hw'
    have hnew : (s.procs w').isNewborn = true := by
      split at hw'
      · rename_i heq
        exact heq ▸ hold hw'
      · exact hw'
    refine ⟨wf.lrange_of_step h hnew, fun hmem => ?_⟩
    rcases halive w' hmem with hmem | ⟨rfl, hp⟩
    · exact (wf.newborn w' hnew).2 hmem
    · rw [if_pos rfl, hp] at hw'
      cases hw'
  starting w' pc c hp := by
    rw [hprocs, Function.update_apply] at hp
    split at hp
    · exact hstarting pc c hp
    · exact wf.starting w' pc c hp
  keys σ hσ w' hw' := by
    have hnot := wf.keys σ (hscheds ▸ hσ) w' hw'
    rw [hprocs, Function.update_apply]
    split
    · rename_i heq
      subst heq
      by_contra hnew
      rw [hold (by simpa using hnew)] at hnot
      cases hnot
    · exact hnot

theorem startMove (wf : NewbornWf s) {w : WorkerId} {deadline : Bool}
    (h : step cfg s a = some s') (hmove : StartMove s w deadline s') : NewbornWf s' := by
  cases hmove with
  | wait => exact wf
  | refrain c hp halive => exact absurd halive (wf.newborn w (by rw [hp]; rfl)).2
  | proceed c hp | nothing c hp =>
      refine wf.setProc h rfl (fun _ => by rw [hp]; rfl) ?_ (fun _ hw => .inl hw) rfl
      rintro pc c' ⟨⟩
      exact ⟨nofun, nofun⟩
  | read c hp hlist =>
      rw [(wf.newborn w (by rw [hp]; rfl)).1] at hlist
      exact absurd rfl hlist
  | reset c ids hp => exact absurd rfl ((wf.starting w _ c hp).1 ids)
  | moved c id hp | done c hp => exact absurd rfl (wf.starting w _ c hp).2
  | beat c hp =>
      refine wf.setProc h rfl nofun nofun (fun w' hw' => ?_) rfl
      rcases List.mem_cons.mp hw' with rfl | hw'
      · exact .inr ⟨rfl, rfl⟩
      · exact .inl (List.mem_of_mem_filter hw')

/-- Every step keeps this as long as worker ids are used once. -/
theorem step (wf : NewbornWf s) (hspawn : ∀ w c, a = .spawn w c → s.procs w = .fresh)
    (h : QueueFlow.step cfg s a = some s') : NewbornWf s' := by
  have hstep := h
  cases a with
  | tick | request => cases h; exact wf.same hstep rfl (fun _ hw => .inl hw) rfl
  | api =>
      obtain ⟨-, h⟩ := Option.ite_none_right_eq_some.mp h
      cases handle_cases h <;> exact wf.same hstep rfl (fun _ hw => .inl hw) rfl
  | apiCrash =>
      obtain ⟨-, h⟩ := Option.ite_none_right_eq_some.mp h
      cases h
      exact wf.same hstep rfl (fun _ hw => .inl hw) rfl
  | spawn w c =>
      obtain ⟨-, -, rfl⟩ := spawn_cases h
      have hfresh := hspawn w c rfl
      refine wf.setProc hstep rfl (fun _ => by rw [hfresh]; rfl) ?_ (fun _ hw => .inl hw) rfl
      rintro pc c ⟨⟩
      exact ⟨nofun, nofun⟩
  | recoverOwn => exact wf.startMove hstep (recoverOwnProcessing_cases h)
  | beat w =>
      obtain ⟨hrun, rfl⟩ := beat_cases h
      refine wf.same hstep rfl (fun w' hw' => ?_) rfl
      rcases List.mem_cons.mp hw' with rfl | hw'
      · exact .inr hrun
      · exact .inl (List.mem_of_mem_filter hw')
  | expire =>
      cases expire_cases h
      exact wf.same hstep rfl (fun _ hw => .inl (List.mem_of_mem_filter hw)) rfl
  | take =>
      obtain ⟨c, rest, id, -, -, rfl⟩ := take_cases h
      exact wf.same hstep rfl (fun _ hw => .inl hw) rfl
  | exec =>
      obtain ⟨-, h⟩ := Option.ite_none_right_eq_some.mp h
      cases processOne_cases h <;> exact wf.same hstep rfl (fun _ hw => .inl hw) rfl
  | execFail =>
      obtain ⟨-, h⟩ := Option.ite_none_right_eq_some.mp h
      cases fails_cases h <;> exact wf.same hstep rfl (fun _ hw => .inl hw) rfl
  | kill =>
      cases kill_cases h
      exact wf.setProc hstep rfl nofun nofun (fun _ hw => .inl hw) rfl
  | startSched =>
      cases h
      refine ⟨wf.newborn, wf.starting, fun σ hσ w hw => ?_⟩
      rcases List.mem_cons.mp hσ with rfl | hσ
      · cases hw
      · exact wf.keys σ hσ w hw
  | sched σ pick =>
      obtain ⟨hσ, h⟩ := Option.ite_none_right_eq_some.mp h
      have hmove := schedule_cases h
      exact wf.schedMove hstep hσ hmove (by cases hmove <;> rfl) (by cases hmove <;> rfl)
  | schedFail σ =>
      obtain ⟨hσ, h⟩ := Option.ite_none_right_eq_some.mp h
      have hmove := abandonPass_cases h
      exact wf.schedMove hstep hσ hmove (by cases hmove <;> rfl) (by cases hmove <;> rfl)
  | schedKill σ =>
      obtain ⟨-, h⟩ := Option.ite_none_right_eq_some.mp h
      cases h
      exact ⟨wf.newborn, wf.starting, fun τ hτ => wf.keys τ (List.mem_of_mem_erase hτ)⟩

end NewbornWf

structure FreshWf (s : State) : Prop where
  newborn : NewbornWf s
  beating : ∀ w, (s.procs w).isRunning = true → w ∈ s.redis.alive
  alone : s.scheds.length ≤ 1

namespace FreshWf

variable {cfg : Config} {s s' : State} {a : Act}

theorem init : FreshWf .init where
  newborn := .init
  beating _ h := by cases h
  alone := Nat.zero_le _

theorem beating_of_step (wf : FreshWf s) (hok : FreshIds s a) (h : QueueFlow.step cfg s a = some s')
    {w : WorkerId} (hw : (s'.procs w).isRunning = true) : w ∈ s'.redis.alive := by
  have hold (hrun : (s.procs w).isRunning = true) : w ∈ s'.redis.alive := by
    rcases alive_of_step h (wf.beating w hrun) with halive | rfl
    · exact halive
    · rw [show (s.procs w).isRunning = false from hok] at hrun
      cases hrun
  rcases procs_of_step h with heq | ⟨w', c, -, -, heq⟩ | ⟨w', -, heq⟩ | ⟨w', deadline, -, hmove⟩
  · exact hold (heq ▸ hw)
  · rw [heq, Function.update_apply] at hw
    split at hw
    · cases hw
    · exact hold hw
  · rw [heq, Function.update_apply] at hw
    split at hw
    · cases hw
    · exact hold hw
  · cases hmove with
    | wait | moved => exact hold hw
    | refrain | proceed | nothing | read | reset | done =>
        rw [State.setProc_procs, Function.update_apply] at hw
        split at hw
        · cases hw
        · exact hold hw
    | beat c hp =>
        by_cases heq : w = w'
        · rw [heq]
          exact List.mem_cons_self
        · rw [State.setProc_procs, Function.update_of_ne heq] at hw
          exact hold hw

theorem alone_of_step (wf : FreshWf s) (hok : FreshIds s a) (h : QueueFlow.step cfg s a = some s') :
    s'.scheds.length ≤ 1 := by
  cases ha : a.sched? with
  | none =>
      rcases scheds_of_step h ha with heq | ⟨rfl, heq⟩ <;> rw [heq]
      · exact wf.alone
      · rw [show s.scheds = [] from hok]
        exact Nat.le_refl 1
  | some σ =>
      obtain ⟨hσ, hmove | ⟨-, rfl⟩⟩ := sched_move_of_step h ha
      · rcases scheds_of_schedMove hmove with heq | ⟨σ', heq⟩ <;> rw [heq]
        · exact (List.erase_sublist.length_le).trans wf.alone
        · have hlen := List.length_erase_of_mem hσ
          have hpos := List.length_pos_of_mem hσ
          have halone := wf.alone
          simp only [Bag.swap, List.length_cons]
          omega
      · exact (List.erase_sublist.length_le).trans wf.alone

theorem step (wf : FreshWf s) (hok : FreshIds s a) (h : QueueFlow.step cfg s a = some s') :
    FreshWf s' where
  newborn := wf.newborn.step (by rintro w c rfl; exact hok) h
  beating _ := wf.beating_of_step hok h
  alone := wf.alone_of_step hok h

/-- With fresh ids and one scheduler the world is steady. -/
theorem steady (wf : FreshWf s) (hok : FreshIds s a) (h : QueueFlow.step cfg s a = some s') :
    Steady s a := by
  cases a with
  | spawn => exact .inl hok
  | recoverOwn w deadline =>
      intro _ halive
      have hnew : (s.procs w).isNewborn = true := by
        cases hp : s.procs w with
        | starting => rfl
        | fresh => rfl
        | running | gone => simp [QueueFlow.step, recoverOwnProcessing, hp] at h
      exact (wf.newborn.newborn w hnew).2 halive
  | sched σ pick =>
      obtain ⟨hσ, -⟩ := Option.ite_none_right_eq_some.mp h
      unfold Steady
      split
      case h_1 | h_2 => contradiction
      case h_3 key keys _ heq =>
        cases heq
        have hnot := wf.newborn.keys _ hσ key List.mem_cons_self
        cases hp : s.procs key with
        | running => exact .inl (wf.beating key (by rw [hp]; rfl))
        | gone => exact .inr rfl
        | fresh | starting => rw [hp] at hnot; cases hnot
      case h_4 heq =>
        cases heq
        intro τ hτ
        obtain rfl : τ = .idle := by
          rcases Nat.le_one_iff_eq_zero_or_eq_one.mp wf.alone with hnone | hone
          · rw [List.eq_nil_of_length_eq_zero hnone] at hτ
            cases hτ
          · obtain ⟨τ', hs⟩ := List.length_eq_one_iff.mp hone
            rw [hs, List.mem_singleton] at hσ hτ
            exact hτ.trans hσ.symm
        rfl
      case h_5 => trivial
  | tick | request | api | apiCrash | beat | expire | take | exec | execFail | kill | startSched | schedFail
  | schedKill => trivial

end FreshWf

end QueueFlow

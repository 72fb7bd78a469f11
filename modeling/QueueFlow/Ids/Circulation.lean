-- SUMMARY: Which texts travel through Redis, and where a text comes from that was not there before.
import QueueFlow.Rows.Attempts

/-!
# Texts in circulation

A text circulates when it is in a list, in the delayed set, or in the hand of a
scheduler or of a request that is about to push it. Programs copy texts from one place
to another; a new text is the canonical text of a job that has a row, or the path
parameter of a replay.
-/

namespace QueueFlow

/-- The orphans that a sweep still has before it. -/
def Sched.candidates : Sched → List Uuid
  | .sweepPending candidates => candidates
  | .sweepScan candidates _ _ _ => candidates
  | .sweepRead candidates _ _ => candidates
  | .sweepPush candidates _ => candidates
  | _ => []

/-- The text is an entry of Redis, or in hand of a process that will make it one. -/
inductive State.Circulates (s : State) (t : Text) : Prop where
  | pending (h : t ∈ s.redis.pending)
  | listed (w : WorkerId) (h : (w, t) ∈ s.redis.processing)
  | delayed (score : Nat) (h : (t, score) ∈ s.redis.delayed)
  | promoting (σ : Sched) (h : σ ∈ s.scheds) (hhand : σ.hand = some t)
  | pushing (x : Api) (h : x ∈ s.apis) (hhand : x.hand = some t)

/-- The job has a row. -/
def State.Known (s : State) (job : Uuid) : Prop := ∃ r, s.db.row job = some r

/-- Sweeps have read their candidates from the table. -/
def SweepWf (s : State) : Prop := ∀ σ ∈ s.scheds, ∀ job ∈ σ.candidates, s.Known job

variable {cfg : Config} {s s' : State} {a : Act} {σ τ : Sched} {t : Text} {job : Uuid} {pick : Pick}

/-! ## Sweeps -/

theorem known_of_orphan (h : job ∈ orphanCandidates cfg s) : s.Known job := by
  unfold orphanCandidates at h
  obtain ⟨r, hr, rfl⟩ := List.mem_map.mp h
  have hmem := List.mem_of_mem_filter ((List.perm_insertionSort _ _).subset (List.mem_of_mem_take hr))
  exact Db.row_isSome_of_mem hmem

/-- A scheduler that takes a step and has candidates had them, or has just read them. -/
private theorem candidates_of_swap {σ' : Sched} (hτ : τ ∈ Bag.swap s.scheds σ σ')
    (hjob : job ∈ τ.candidates) (hσ' : job ∈ σ'.candidates →
      job ∈ σ.candidates ∨ job ∈ orphanCandidates cfg s) :
    τ ∈ s.scheds ∨ job ∈ σ.candidates ∨ job ∈ orphanCandidates cfg s := by
  rcases Bag.mem_of_mem_swap hτ with rfl | hmem
  · exact .inr (hσ' hjob)
  · exact .inl hmem

private theorem candidates_of_sweep (h : sweepOrphans cfg s σ pick = some s') (hτ : τ ∈ s'.scheds)
    (hjob : job ∈ τ.candidates) : τ ∈ s.scheds ∨ job ∈ σ.candidates ∨ job ∈ orphanCandidates cfg s := by
  unfold sweepOrphans at h
  split at h
  case h_1 =>
    split at h
    · cases h; exact candidates_of_swap hτ hjob nofun
    · cases h; exact candidates_of_swap hτ hjob .inr
  case h_3 =>
    split at h
    case h_1 =>
      obtain ⟨⟨todo, found⟩, -, rfl⟩ := Option.map_eq_some_iff.mp h
      exact candidates_of_swap hτ hjob .inl
    case h_2 =>
      split at h
      · cases h; exact candidates_of_swap hτ hjob .inl
      · cases h
  case h_2 | h_4 | h_5 => cases h; exact candidates_of_swap hτ hjob .inl
  case h_6 => cases h; exact candidates_of_swap hτ hjob nofun
  case h_7 =>
    split at h
    all_goals cases h; exact candidates_of_swap hτ hjob fun hmem => .inl (List.mem_cons_of_mem _ hmem)
  case h_8 => cases h

theorem candidates_of_promoteDue (h : promoteDue s σ = some s') (hτ : τ ∈ s'.scheds)
    (hjob : job ∈ τ.candidates) : τ ∈ s.scheds := by
  have hswap {σ' : Sched} (hmem : τ ∈ Bag.swap s.scheds σ σ') (hσ' : σ'.candidates = []) :
      τ ∈ s.scheds := by
    rcases Bag.mem_of_mem_swap hmem with rfl | hmem
    · rw [hσ'] at hjob
      cases hjob
    · exact hmem
  unfold promoteDue at h
  repeat' split at h
  all_goals cases h
  all_goals first
    | exact hswap hτ rfl
    | exact List.mem_of_mem_erase hτ

theorem candidates_of_reapDead (h : reapDead s σ pick = some s') (hτ : τ ∈ s'.scheds)
    (hjob : job ∈ τ.candidates) : τ ∈ s.scheds := by
  have hswap {σ' : Sched} (hmem : τ ∈ Bag.swap s.scheds σ σ') (hσ' : σ'.candidates = []) :
      τ ∈ s.scheds := by
    rcases Bag.mem_of_mem_swap hmem with rfl | hmem
    · rw [hσ'] at hjob
      cases hjob
    · exact hmem
  unfold reapDead at h
  split at h
  case h_1 todo found =>
    split at h
    case h_1 w =>
      obtain ⟨⟨t, f⟩, -, rfl⟩ := Option.map_eq_some_iff.mp h
      exact hswap hτ rfl
    case h_2 =>
      split at h
      · cases h; exact hswap hτ rfl
      · cases h
  case h_5 key id keys =>
    split at h
    case h_1 => cases h; exact hswap hτ rfl
    case h_2 u hid =>
      cases h
      refine hswap hτ ?_
      rcases judge_cases key id keys (s.db.row u) with ⟨heq, -⟩ | ⟨r, -, -, -, ⟨heq, -⟩ | ⟨heq, -⟩⟩ <;>
        rw [heq] <;> rfl
  case h_10 => cases h
  all_goals
    repeat' split at h
    all_goals cases h
    all_goals exact hswap hτ rfl

private theorem candidates_of_schedule (h : schedule cfg s σ pick = some s') (hτ : τ ∈ s'.scheds)
    (hjob : job ∈ τ.candidates) : τ ∈ s.scheds ∨ job ∈ σ.candidates ∨ job ∈ orphanCandidates cfg s := by
  unfold schedule at h
  split at h
  case h_1 =>
    split at h
    case h_1 | h_2 => cases h; exact candidates_of_swap hτ hjob nofun
    case h_3 => cases h
  case h_2 | h_3 | h_4 => exact .inl (candidates_of_promoteDue h hτ hjob)
  case h_5 | h_6 | h_7 | h_8 | h_9 | h_10 | h_11 | h_12 =>
    exact .inl (candidates_of_reapDead h hτ hjob)
  all_goals exact candidates_of_sweep h hτ hjob

/-- The candidates of a sweep were there before, or it has just read them. -/
theorem candidates_of_step (h : step cfg s a = some s') (hτ : τ ∈ s'.scheds) (hjob : job ∈ τ.candidates) :
    (∃ σ ∈ s.scheds, job ∈ σ.candidates) ∨ job ∈ orphanCandidates cfg s := by
  cases hs : a.sched? with
  | none =>
      rcases scheds_of_step h hs with heq | ⟨-, heq⟩ <;> rw [heq] at hτ
      · exact .inl ⟨τ, hτ, hjob⟩
      · rcases List.mem_cons.mp hτ with rfl | hτ
        · cases hjob
        · exact .inl ⟨τ, hτ, hjob⟩
  | some σ =>
      cases a with
      | sched σ' pick =>
          obtain ⟨hσ, h⟩ := Option.ite_none_right_eq_some.mp h
          rcases candidates_of_schedule h hτ hjob with hτ | hσjob | horphan
          · exact .inl ⟨τ, hτ, hjob⟩
          · exact .inl ⟨σ', hσ, hσjob⟩
          · exact .inr horphan
      | schedFail σ' =>
          obtain ⟨-, h⟩ := Option.ite_none_right_eq_some.mp h
          unfold abandonPass at h
          split at h <;> cases h
          rcases Bag.mem_of_mem_swap hτ with rfl | hτ
          · cases hjob
          · exact .inl ⟨τ, hτ, hjob⟩
      | schedKill σ' =>
          obtain ⟨-, h⟩ := Option.ite_none_right_eq_some.mp h
          cases h
          exact .inl ⟨τ, List.mem_of_mem_erase hτ, hjob⟩
      | _ => cases hs

theorem State.Known.step (known : s.Known job) (h : QueueFlow.step cfg s a = some s') :
    s'.Known job := by
  obtain ⟨r, hrow⟩ := known
  exact row_of_step h hrow

namespace SweepWf

theorem init : SweepWf .init := nofun

theorem step (wf : SweepWf s) (h : QueueFlow.step cfg s a = some s') : SweepWf s' := by
  intro τ hτ job hjob
  refine State.Known.step ?_ h
  rcases candidates_of_step h hτ hjob with ⟨σ, hσ, hjob⟩ | horphan
  · exact wf σ hσ job hjob
  · exact known_of_orphan horphan

end SweepWf

/-! ## Texts -/

/-- A text in the hand of a scheduler was there before, or is taken out of the delayed set. -/
private theorem sched_hand_origin (h : step cfg s a = some s') (hτ : τ ∈ s'.scheds)
    (hhand : τ.hand = some t) : s.Circulates t := by
  cases sched_origin h hτ with
  | stays hτ => exact .promoting τ hτ hhand
  | rests hrest =>
      rw [hrest] at hhand
      cases hhand
  | removed id due hdue =>
      cases hhand
      obtain ⟨score, hmem⟩ := Redis.isDelayed_iff.mp hdue
      exact .delayed score hmem
  | promoted id due hσ => exact .promoting _ hσ hhand
  | judges key id keys u =>
      rcases judge_cases key id keys (s.db.row u) with
        ⟨heq, -⟩ | ⟨r, -, -, -, ⟨heq, -⟩ | ⟨heq, -⟩⟩ <;> rw [heq] at hhand <;> cases hhand
  | peeks | reads | rejects | buried | requeued => cases hhand

/-- How a text comes into circulation that did not circulate before. -/
inductive Enters (s : State) (a : Act) (s' : State) (t : Text) : Prop where
  | swept (job : Uuid) (candidates : List Uuid) (held : List Text) (pick : Pick)
      (ha : a = .sched (.sweepPush (job :: candidates) held) pick)
      (hσ : .sweepPush (job :: candidates) held ∈ s.scheds) (ht : t = uuidOut job)
  | parked (e : Exec) (hold : Holding) (runAt : Nat) (ha : a.exec? = some e)
      (hpc : e.pc = .zadd hold runAt) (ht : t = uuidOut hold.job)
  | inserted (job : Uuid) (hnew : s.db.row job = none) (hknown : s'.Known job) (ht : t = uuidOut job)
  | replayed (g : Uuid) (job : Uuid) (ha : a = .api (.replay t) g) (hreplay : a.replays? s = some job)

/-- A text in the hand of a request was there before, or the request has set a row. -/
private theorem api_hand_origin {x : Api} (h : step cfg s a = some s') (hx : x ∈ s'.apis)
    (hhand : x.hand = some t) : s.Circulates t ∨ Enters s a s' t := by
  have hold (hx : x ∈ s.apis) : s.Circulates t := .pushing x hx hhand
  rcases apis_of_step h with ⟨-, heq, -⟩ | ⟨req, -, rfl⟩ | ⟨y, -, rfl⟩ | ⟨y, g, rfl, hy, h⟩
  · exact .inl (hold (heq ▸ hx))
  · rcases List.mem_cons.mp hx with rfl | hx
    · cases req <;> cases hhand
    · exact .inl (hold hx)
  · exact .inl (hold (List.mem_of_mem_erase hx))
  · cases handle_cases h with
    | turned y' _ hhand' =>
        rcases Bag.mem_of_mem_swap hx with rfl | hx
        · rw [hhand'] at hhand
          cases hhand
        · exact .inl (hold hx)
    | answered | pushed => exact .inl (hold (List.mem_of_mem_erase hx))
    | inserted key generated hpc _ hrow =>
        rcases Bag.mem_of_mem_swap hx with rfl | hx
        · cases hhand
          exact .inr (.inserted generated hrow ⟨_, (Db.row_insertJob hrow).trans (if_pos rfl)⟩ rfl)
        · exact .inl (hold hx)
    | replayed id job r hpc hid hfree hrow hdead =>
        subst hpc
        rcases Bag.mem_of_mem_swap hx with rfl | hx
        · cases hhand
          exact .inr (.replayed g job rfl (replays?_eq_some.mpr ⟨t, g, rfl, hid, r, hrow, hdead⟩))
        · exact .inl (hold hx)

/-- A step copies texts in circulation, or brings one into it. -/
theorem circulates_cases (h : step cfg s a = some s') (ht : s'.Circulates t) :
    s.Circulates t ∨ Enters s a s' t := by
  cases ht with
  | pending hmem =>
      rcases mem_pending_of_step h hmem with hmem | ⟨w, hmem⟩ | ⟨σ, hσ, hhand⟩ | ⟨x, hx, hhand⟩ |
        ⟨job, candidates, held, pick, ha, hσ, heq⟩
      · exact .inl (.pending hmem)
      · exact .inl (.listed w hmem)
      · exact .inl (.promoting σ hσ hhand)
      · exact .inl (.pushing x hx hhand)
      · exact .inr (.swept job candidates held pick ha hσ heq)
  | listed w hmem =>
      rcases step_processing h with heq | heq | ⟨w', id, rfl, heq⟩
      · exact .inl (.listed w (heq ▸ hmem))
      · exact .inl (.listed w (trimmed_subset (heq ▸ hmem)))
      · obtain ⟨c, rest, last, -, hpending, rfl⟩ := take_cases h
        rcases List.mem_cons.mp hmem with heq | hmem
        · cases heq
          exact .inl (.pending (by simp [hpending]))
        · exact .inl (.listed w hmem)
  | delayed score hmem =>
      rcases delayed_of_step h hmem with hmem | ⟨e, hold, runAt, ha, hpc, heq⟩
      · exact .inl (.delayed score hmem)
      · exact .inr (.parked e hold runAt ha hpc (congrArg Prod.fst heq))
  | promoting σ hσ hhand => exact .inl (sched_hand_origin h hσ hhand)
  | pushing x hx hhand => exact api_hand_origin h hx hhand

/-- A text that a step puts into circulation is the canonical text of a job that has a row, or
the path parameter of a replay that finds its row dead. -/
theorem circulates_of_step (wf : HoldingWf s) (sweep : SweepWf s) (h : step cfg s a = some s')
    (ht : s'.Circulates t) : s.Circulates t ∨ (∃ job, t = uuidOut job ∧ s'.Known job) ∨
      ∃ g job, a = .api (.replay t) g ∧ a.replays? s = some job := by
  rcases circulates_cases h ht with ht | ht
  · exact .inl ht
  cases ht with
  | swept job candidates held pick _ hσ heq =>
      exact .inr (.inl ⟨job, heq, (sweep _ hσ job List.mem_cons_self).step h⟩)
  | parked e hold runAt ha hpc heq =>
      obtain ⟨r, hrow, -⟩ := (wf.knows e (exec_mem_of_step h ha)).held hold (by rw [hpc]; rfl)
      exact .inr (.inl ⟨hold.job, heq, State.Known.step ⟨r, hrow⟩ h⟩)
  | inserted job _ hknown heq => exact .inr (.inl ⟨job, heq, hknown⟩)
  | replayed g job ha hreplay => exact .inr (.inr ⟨g, job, ha, hreplay⟩)

end QueueFlow

-- SUMMARY: Passes of sweepOrphans with nobody else acting: they reach every orphan just when each is among the first BATCH old rows.
import QueueFlow.Frame
import QueueFlow.Script

/-!
# Repeated sweeps

A pass asks Postgres for the `BATCH` oldest `'queued'` rows and pushes those of them that Redis does
not hold. With nobody else acting the rows stay as they are, so every later pass asks for the same
rows again. `Sweeps` is one pass as the scheduler runs it, command by command; `State.swept` is what
it amounts to.
-/

namespace QueueFlow

open Transition

/-- The id is in `pending` or in a processing list. -/
def Redis.Holds (r : Redis) (id : Text) : Prop := id ∈ r.pending ∨ ∃ e ∈ r.processing, e.2 = id

instance (r : Redis) (id : Text) : Decidable (r.Holds id) :=
  inferInstanceAs (Decidable (_ ∨ ∃ e ∈ r.processing, e.2 = id))

/-! ## One pass -/

def Sched.sweeping : Sched → Bool
  | .sweepPending _ | .sweepScan _ _ _ _ | .sweepRead _ _ _ | .sweepPush _ _ => true
  | _ => false

/-- Nobody acts but the scheduler inside its pass. -/
def SweepingOnly (_ : State) : Act → Prop
  | .tick _ => True
  | .sched σ _ => σ.sweeping = true
  | _ => False

/-- One pass of `sweepOrphans`, from its query to its end. -/
structure Sweeps (cfg : Config) (s t : State) : Prop where
  starts : s.scheds = [.sweepSelect]
  runs : ∃ u, step cfg s (.sched .sweepSelect .next) = some u ∧ Run (step cfg) SweepingOnly u t
  ends : t.scheds = [.idle]

/-- The scheduler is about to start the next pass. -/
def State.again (s : State) : State := { s with scheds := [.sweepSelect] }

/-- So many passes, one after the other. -/
inductive Passes (cfg : Config) (s : State) : Nat → State → Prop where
  | none : Passes cfg s 0 s
  | next {n : Nat} {t u : State} : Passes cfg s n t → Sweeps cfg t u → Passes cfg s (n + 1) u.again

/-- The candidates that Redis does not hold. -/
def State.missing (s : State) (candidates : List Uuid) : List Text :=
  (candidates.filter fun job => ¬ s.redis.Holds (uuidOut job)).map uuidOut

/-- What a pass that begins in the state amounts to. -/
def State.swept (cfg : Config) (s : State) : Redis :=
  { s.redis with pending := s.redis.pending ++ s.missing (orphanCandidates cfg s) }

/-! ## What a pass has found out so far -/

section

variable {cfg : Config} {s s' t u : State} {σ : Sched} {pick : Pick} {id : Text} {n : Nat}
  {r : Redis} {w : WorkerId}

theorem Redis.holds_iff : r.Holds id ↔ id ∈ r.pending ∨ ∃ w, id ∈ r.lrange w := by
  simp [Redis.Holds, Redis.lrange, KeyedList.mem_get]

/-- The points of a pass that began in the state `s`, with the store at each of them. -/
inductive PassAt (cfg : Config) (s : State) : Sched → Redis → Prop where
  | pending : PassAt cfg s (.sweepPending (orphanCandidates cfg s)) s.redis
  | scan (todo found : List WorkerId) (hkeys : ∀ w, s.redis.lrange w ≠ [] → w ∈ todo ∨ w ∈ found) :
      PassAt cfg s (.sweepScan (orphanCandidates cfg s) s.redis.pending todo found) s.redis
  | read (held : List Text) (keys : List WorkerId) (hheld : ∀ id ∈ held, s.redis.Holds id)
      (hpending : ∀ id ∈ s.redis.pending, id ∈ held)
      (hlists : ∀ w id, id ∈ s.redis.lrange w → id ∈ held ∨ w ∈ keys) :
      PassAt cfg s (.sweepRead (orphanCandidates cfg s) held keys) s.redis
  | push (done candidates : List Uuid) (held : List Text)
      (hcandidates : done ++ candidates = orphanCandidates cfg s)
      (hheld : ∀ id, id ∈ held ↔ s.redis.Holds id) :
      PassAt cfg s (.sweepPush candidates held)
        { s.redis with pending := s.redis.pending ++ s.missing done }
  | done : PassAt cfg s .idle (s.swept cfg)

theorem scanStep_covers {todo found t f : List WorkerId} (hstep : scanStep s w todo found = some (t, f))
    {w' : WorkerId} (hne : s.redis.lrange w' ≠ []) (h : w' ∈ todo ∨ w' ∈ found) : w' ∈ t ∨ w' ∈ f := by
  unfold scanStep at hstep
  split at hstep
  · cases hstep
    by_cases hw : w' = w
    · subst hw
      rw [if_neg hne]
      exact .inr (List.mem_append_right _ (List.mem_singleton_self _))
    · refine h.imp (List.mem_erase_of_ne hw).mpr fun hfound => ?_
      split
      · exact hfound
      · exact List.mem_append_left _ hfound
  · split at hstep
    · cases hstep
    · cases hstep
      exact h.imp_right (List.mem_append_left _)

theorem State.missing_append (done : List Uuid) (job : Uuid) : s.missing (done ++ [job]) =
    s.missing done ++ if s.redis.Holds (uuidOut job) then [] else [uuidOut job] := by
  by_cases h : s.redis.Holds (uuidOut job) <;> simp [State.missing, h]

namespace PassAt

/-- A pass does not touch the processing lists. -/
theorem lrange_eq (hat : PassAt cfg s σ r) (w : WorkerId) : r.lrange w = s.redis.lrange w := by
  cases hat <;> rfl

/-- A command of the pass leads to its next point. -/
theorem step (hat : PassAt cfg s σ t.redis) (hσ : σ.sweeping = true)
    (h : sweepOrphans cfg t σ pick = some u) :
    ∃ σ', u.scheds = Bag.swap t.scheds σ σ' ∧ u.db = t.db ∧ PassAt cfg s σ' u.redis := by
  have hlrange := hat.lrange_eq
  generalize hr : t.redis = redis at hat
  cases hat with
  | done => cases hσ
  | pending =>
      cases h
      refine ⟨_, rfl, rfl, ?_⟩
      rw [State.setSched_redis, hr]
      refine .scan _ _ fun w hw => .inl (KeyedList.mem_keys.mpr ?_)
      exact (hlrange w).trans_ne hw
  | scan todo found hkeys =>
      cases pick with
      | visit w =>
          obtain ⟨⟨todo', found'⟩, hscan, rfl⟩ := Option.map_eq_some_iff.mp h
          refine ⟨_, rfl, rfl, ?_⟩
          rw [State.setSched_redis, hr]
          refine .scan _ _ fun w' hw' => ?_
          exact scanStep_covers hscan ((hlrange w').trans_ne hw') (hkeys w' hw')
      | next | recover =>
          obtain ⟨hnil, heq⟩ := Option.ite_none_right_eq_some.mp h
          cases heq
          refine ⟨_, rfl, rfl, ?_⟩
          rw [State.setSched_redis, hr]
          refine .read _ _ (fun _ hid => .inl hid) (fun _ hid => hid) fun w id hid => .inr ?_
          have hfound := hkeys w (List.ne_nil_of_mem hid)
          rw [hnil] at hfound
          exact hfound.resolve_left List.not_mem_nil
  | read held keys hheld hpending hlists =>
      cases keys with
      | nil =>
          cases h
          refine ⟨_, rfl, rfl, ?_⟩
          rw [State.setSched_redis, hr]
          have hat := PassAt.push [] _ held (List.nil_append (orphanCandidates cfg s)) fun id => ?_
          · simpa [State.missing] using hat
          · refine ⟨hheld id, fun hid => ?_⟩
            rcases Redis.holds_iff.mp hid with hid | ⟨w, hid⟩
            · exact hpending id hid
            · exact (hlists w id hid).resolve_right List.not_mem_nil
      | cons key keys =>
          cases h
          refine ⟨_, rfl, rfl, ?_⟩
          rw [State.setSched_redis, hr, ← hr, hlrange, hr]
          refine .read _ _ (fun id hid => ?_)
            (fun id hid => List.mem_append_left _ (hpending id hid)) fun w id hid => ?_
          · rcases List.mem_append.mp hid with hid | hid
            · exact hheld id hid
            · exact Redis.holds_iff.mpr (.inr ⟨key, hid⟩)
          · rcases hlists w id hid with hin | hin
            · exact .inl (List.mem_append_left _ hin)
            rcases List.mem_cons.mp hin with rfl | hin
            · exact .inl (List.mem_append_right _ hid)
            · exact .inr hin
  | push done candidates held hcandidates hheld =>
      cases candidates with
      | nil =>
          cases h
          refine ⟨_, rfl, rfl, ?_⟩
          rw [State.setSched_redis, hr, ← List.append_nil done, hcandidates]
          exact .done
      | cons job candidates =>
          have hnext : done ++ [job] ++ candidates = orphanCandidates cfg s := by
            rw [List.append_assoc, List.singleton_append, hcandidates]
          simp only [sweepOrphans] at h
          split at h
          · rename_i hin
            cases h
            refine ⟨_, rfl, rfl, ?_⟩
            have hat := PassAt.push _ _ held hnext hheld
            rw [State.missing_append, if_pos ((hheld _).mp hin), List.append_nil] at hat
            rw [State.setSched_redis, hr]
            exact hat
          · rename_i hin
            cases h
            refine ⟨_, rfl, rfl, ?_⟩
            have hat := PassAt.push _ _ held hnext hheld
            rw [State.missing_append, if_neg (mt (hheld _).mpr hin), ← List.append_assoc] at hat
            rw [State.setSched_redis, State.withRedis_redis, hr]
            exact hat

end PassAt

private theorem step_of_sweeping (hs : t.scheds = [σ]) (hσ : σ.sweeping = true) :
    QueueFlow.step cfg t (.sched σ pick) = sweepOrphans cfg t σ pick := by
  simp only [QueueFlow.step, hs, List.mem_singleton, if_true]
  cases σ <;> first | rfl | cases hσ

/-- A pass changes nothing but `pending`, and that as `swept` says. -/
theorem Sweeps.spec (h : Sweeps cfg s t) :
    t.db = s.db ∧ t.redis = s.swept cfg ∧ s.now ≤ t.now := by
  obtain ⟨u, hselect, hrun⟩ := h.runs
  have hfirst : ∃ σ, u.scheds = [σ] ∧ u.db = s.db ∧ PassAt cfg s σ u.redis ∧ s.now ≤ u.now := by
    obtain ⟨-, hsched⟩ := Option.ite_none_right_eq_some.mp hselect
    simp only [schedule, sweepOrphans] at hsched
    split at hsched
    · rename_i hnone
      cases hsched
      refine ⟨.idle, by simp [h.starts, Bag.swap], rfl, ?_, Nat.le_refl _⟩
      have hdone : PassAt cfg s _ _ := PassAt.done
      rwa [State.swept, hnone, State.missing, List.filter_nil, List.map_nil, List.append_nil] at hdone
    · cases hsched
      exact ⟨_, by simp [h.starts, Bag.swap], rfl, .pending, Nat.le_refl _⟩
  have hlast := hrun.invariant
    (P := fun t => ∃ σ, t.scheds = [σ] ∧ t.db = s.db ∧ PassAt cfg s σ t.redis ∧ s.now ≤ t.now) hfirst ?_
  · obtain ⟨σ, hs, hdb, hat, hnow⟩ := hlast
    obtain rfl : σ = .idle := by simpa [hs] using h.ends
    generalize hr : t.redis = redis at hat
    cases hat
    exact ⟨hdb, rfl, hnow⟩
  · rintro v a v' ⟨σ, hs, hdb, hat, hnow⟩ hok hstep
    have hle := hnow.trans (now_le_of_step hstep)
    cases a with
    | tick =>
        cases hstep
        exact ⟨σ, hs, hdb, hat, hle⟩
    | sched σ' pick =>
        obtain ⟨hmem, -⟩ := Option.ite_none_right_eq_some.mp hstep
        obtain rfl : σ' = σ := by simpa [hs] using hmem
        rw [step_of_sweeping hs hok] at hstep
        obtain ⟨σ'', hs', hdb', hat'⟩ := hat.step hok hstep
        exact ⟨σ'', by rw [hs', hs, Bag.swap, List.erase_cons_head], hdb'.trans hdb, hat', hle⟩
    | _ => cases hok

/-! ## A pass comes to its end -/

/-- The scheduler can go on to the end of its pass. -/
private def Finishes (cfg : Config) (s : State) : Prop :=
  ∃ t, Run (step cfg) SweepingOnly s t ∧ t.scheds = [.idle]

private theorem finishes_of_step {σ' : Sched} (pick : Pick) (hs : t.scheds = [σ]) (hσ : σ.sweeping = true)
    (h : sweepOrphans cfg t σ pick = some u) (hu : u.scheds = Bag.swap t.scheds σ σ')
    (hrest : u.scheds = [σ'] → Finishes cfg u) : Finishes cfg t := by
  have hsched : u.scheds = [σ'] := by rw [hu, hs, Bag.swap, List.erase_cons_head]
  obtain ⟨v, hrun, hend⟩ := hrest hsched
  refine ⟨v, (Run.single ?_ ((step_of_sweeping hs hσ).trans h)).trans hrun, hend⟩
  exact hσ

private theorem finishes_push {candidates : List Uuid} {held : List Text} :
    ∀ {t : State}, t.scheds = [.sweepPush candidates held] → Finishes cfg t := by
  induction candidates with
  | nil =>
      intro t hs
      exact finishes_of_step .next hs rfl rfl rfl fun h => ⟨_, .refl, h⟩
  | cons job candidates ih =>
      intro t hs
      by_cases hin : uuidOut job ∈ held
      · exact finishes_of_step .next hs rfl (if_pos hin) rfl ih
      · exact finishes_of_step .next hs rfl (if_neg hin) rfl ih

private theorem finishes_read {candidates : List Uuid} {keys : List WorkerId} :
    ∀ {t : State} {held : List Text}, t.scheds = [.sweepRead candidates held keys] →
      Finishes cfg t := by
  induction keys with
  | nil =>
      intro t held hs
      exact finishes_of_step .next hs rfl rfl rfl finishes_push
  | cons key keys ih =>
      intro t held hs
      exact finishes_of_step .next hs rfl rfl rfl ih

private theorem finishes_scan {candidates : List Uuid} {held : List Text} {todo : List WorkerId} :
    ∀ {t : State} {found : List WorkerId}, t.scheds = [.sweepScan candidates held todo found] →
      Finishes cfg t := by
  induction todo with
  | nil =>
      intro t found hs
      have hstep : sweepOrphans cfg t (.sweepScan candidates held [] found) .next =
          some (t.setSched (.sweepScan candidates held [] found) (.sweepRead candidates held found)) := rfl
      exact finishes_of_step .next hs rfl hstep rfl finishes_read
  | cons w todo ih =>
      intro t found hs
      have hscan : scanStep t w (w :: todo) found =
          some (todo, if t.redis.lrange w = [] then found else found ++ [w]) := by
        rw [scanStep, if_pos List.mem_cons_self, List.erase_cons_head]
      have hstep := congrArg (Option.map fun p : List WorkerId × List WorkerId =>
        t.setSched (.sweepScan candidates held (w :: todo) found) (.sweepScan candidates held p.1 p.2)) hscan
      exact finishes_of_step (.visit w) hs rfl hstep rfl ih

theorem exists_sweeps (hs : s.scheds = [.sweepSelect]) : ∃ t, Sweeps cfg s t := by
  have hselect : ∃ u, QueueFlow.step cfg s (.sched .sweepSelect .next) = some u ∧ Finishes cfg u := by
    simp only [QueueFlow.step, hs, List.mem_singleton, if_true, schedule, sweepOrphans]
    split
    · exact ⟨_, rfl, _, .refl, by simp [hs, Bag.swap]⟩
    · have hpending : (s.setSched .sweepSelect (.sweepPending (orphanCandidates cfg s))).scheds =
          [.sweepPending (orphanCandidates cfg s)] := by simp [hs, Bag.swap]
      exact ⟨_, rfl, finishes_of_step .next hpending rfl rfl rfl finishes_scan⟩
  obtain ⟨u, hu, t, hrun, hend⟩ := hselect
  exact ⟨t, hs, ⟨u, hu, hrun⟩, hend⟩

theorem exists_passes (hs : s.scheds = [.sweepSelect]) : ∃ t, Passes cfg s n t ∧ t.scheds = [.sweepSelect] := by
  induction n with
  | zero => exact ⟨s, .none, hs⟩
  | succ n ih =>
      obtain ⟨t, hpasses, ht⟩ := ih
      obtain ⟨u, hu⟩ : ∃ u, Sweeps cfg t u := exists_sweeps ht
      exact ⟨u.again, .next hpasses hu, rfl⟩

end

end QueueFlow

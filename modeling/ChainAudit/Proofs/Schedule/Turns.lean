import ChainAudit.Proofs.Schedule.Ensures
import ChainAudit.Schedule.Pool
import Mathlib.Data.Multiset.MapFold

/-!
# Pools give every activity its turns

Activities that may be broken off at an instant sleep for whole milliseconds until then. So each of
them needs few turns, a pool has enough of them, and it yields one result for each of its
activities, of the kind that the activity ensures, unless one of the results is fatal.
-/

namespace ChainAudit.Schedule

open ChainAudit.Clock Activity

/-- What one run of turns comes to. -/
def Activity.Progress.Ensures (pace : Instant → Instant → Prop) (inv : σ → Prop)
    (post : α → Instant → Prop) (now : Instant) : Progress σ α → Prop
  | .finished a => post a now
  | .asleep wake rest => now < wake ∧ pace now wake ∧ rest.Ensures pace inv post wake

theorem advance_ensures {pace : Instant → Instant → Prop} {inv : σ → Prop}
    {post : α → Instant → Prop} {a : Activity σ α} {now : Instant} {s : σ}
    (h : a.Ensures pace inv post now) (hs : inv s) :
    (a.advance now s).1.Ensures pace inv post now ∧ inv (a.advance now s).2 := by
  induction a generalizing s with
  | done r => exact ⟨h, hs⟩
  | act change next ih =>
    obtain ⟨hkeep, hnext⟩ := h s hs
    exact ih now s hnext hkeep
  | sleep wake next ih =>
    simp only [advance]
    split
    · rename_i hdue
      have hnext := h.2
      rw [Nat.max_eq_left hdue] at hnext
      exact ih hnext hs
    · rename_i hdue
      have hlt := Nat.lt_of_not_le hdue
      have hnext := h.2
      rw [Nat.max_eq_right (Nat.le_of_lt hlt)] at hnext
      exact ⟨⟨hlt, h.1 hlt, hnext⟩, hs⟩

/-- How many turns are left at an instant to an activity that is broken off at `fires`: one for
each whole millisecond of sleep before that, one at the stop, and the present one. -/
def turnsLeft (fires now : Nat) : Nat :=
  if now < fires then (fires - 1 - now) / 1000000 + 2 else 1

theorem turnsLeft_pos (fires now : Nat) : 0 < turnsLeft fires now := by
  unfold turnsLeft
  split <;> omega

theorem turnsLeft_anti (fires : Nat) {now later : Nat} (h : now ≤ later) :
    turnsLeft fires later ≤ turnsLeft fires now := by
  unfold turnsLeft
  split <;> split <;> omega

theorem turnsLeft_sleep {fires now wake : Nat} (h : Ticking (some fires) now wake)
    (hlt : now < wake) : turnsLeft fires wake < turnsLeft fires now := by
  have hticking : now < fires ∧ wake ≤ fires ∧
    (wake % 1000000 = now % 1000000 ∨ wake = fires) := h
  unfold turnsLeft
  split <;> split <;> omega

theorem turnsLeft_le {fires horizon : Nat} (now : Nat) (h : fires ≤ timer horizon) :
    turnsLeft fires now ≤ (horizon - now) / 1000000 + 3 := by
  have hle : fires ≤ (horizon + 999999) / 1000000 * 1000000 := h
  unfold turnsLeft
  split <;> omega

theorem earliest?_eq_none {l : List (Sleeper σ α)} (h : earliest? l = none) : l = [] := by
  cases l with
  | nil => rfl
  | cons x rest =>
    simp only [earliest?] at h
    split at h
    · simp at h
    · split at h <;> simp at h

theorem earliest?_spec {l others : List (Sleeper σ α)} {first : Sleeper σ α}
    (h : earliest? l = some (first, others)) :
    l.Perm (first :: others) ∧ ∀ x ∈ others, first.wake ≤ x.wake := by
  induction l generalizing first others with
  | nil => simp [earliest?] at h
  | cons x rest ih =>
    simp only [earliest?] at h
    split at h
    · rename_i hnone
      obtain ⟨rfl, rfl⟩ := Prod.mk.inj (Option.some.inj h)
      rw [earliest?_eq_none hnone]
      exact ⟨.refl _, by simp⟩
    · rename_i e more hsome
      obtain ⟨hperm, hleast⟩ := ih hsome
      split at h
      · rename_i hlt
        obtain ⟨rfl, rfl⟩ := Prod.mk.inj (Option.some.inj h)
        refine ⟨(hperm.cons x).trans (.swap _ _ _), ?_⟩
        intro y hy
        rcases List.mem_cons.mp hy with rfl | hy
        · exact Nat.le_of_lt hlt
        · exact hleast y hy
      · rename_i hge
        obtain ⟨rfl, rfl⟩ := Prod.mk.inj (Option.some.inj h)
        refine ⟨.refl _, fun y hy => ?_⟩
        have hx := Nat.le_of_not_lt hge
        rcases List.mem_cons.mp (hperm.mem_iff.mp hy) with rfl | hy
        · exact hx
        · exact Nat.le_trans hx (hleast y hy)

section Pools

variable {κ : Type} {start fires : Instant} {inv : σ → Prop} {result : κ → α → Prop}

/-- Where the activities of a pool stand on the clock that was started at `start`: until the stop, at
the place of a millisecond where they started. -/
def Placed (start fires t : Instant) : Prop :=
  start ≤ t ∧ (t % 1000000 = start % 1000000 ∨ fires ≤ t)

theorem Placed.tick {now wake : Instant} (h : Placed start fires now) (hlt : now < wake)
    (hpace : Ticking (some fires) now wake) : Placed start fires wake := by
  obtain ⟨hstart, hnow⟩ := h
  obtain ⟨hbefore, -, hplace | rfl⟩ := hpace
  · rcases hnow with hnow | hfired
    · exact ⟨Nat.le_trans hstart (Nat.le_of_lt hlt), .inl (hplace.trans hnow)⟩
    · exact absurd hbefore (Nat.not_lt_of_le hfired)
  · exact ⟨Nat.le_trans hstart (Nat.le_of_lt hlt), .inr (Nat.le_refl wake)⟩

/-- The activity does the job of a key when it goes on at an instant. -/
def DoesJob (fires : Instant) (inv : σ → Prop) (result : κ → α → Prop) (k : κ)
    (a : Activity σ α) (now : Instant) : Prop :=
  a.Ensures (Ticking (some fires)) inv (fun r _ => result k r) now

/-- A sleeper that wakes no earlier than `now` does the job of a key. -/
structure Sleeper.DoesJob (start fires : Instant) (inv : σ → Prop) (result : κ → α → Prop)
    (now : Instant) (k : κ) (x : Sleeper σ α) : Prop where
  later : now ≤ x.wake
  placed : Placed start fires x.wake
  does : ChainAudit.Schedule.DoesJob fires inv result k x.rest x.wake

/-- An activity does the job of a key whenever the pool starts it. -/
def WillDoJob (start fires : Instant) (inv : σ → Prop) (result : κ → α → Prop) (k : κ)
    (a : Activity σ α) : Prop :=
  ∀ t, Placed start fires t → DoesJob fires inv result k a t

/-- The turns that a queue and sleepers may still need. -/
def turnsDue (fires now queued : Nat) : List (Sleeper σ α) → Nat
  | [] => queued * turnsLeft fires now
  | x :: rest => turnsLeft fires x.wake + turnsDue fires now queued rest

private theorem turnsDue_perm (fires now queued : Nat) {l l' : List (Sleeper σ α)}
    (h : l.Perm l') : turnsDue fires now queued l = turnsDue fires now queued l' := by
  induction h with
  | nil => rfl
  | cons x _ ih => simp only [turnsDue, ih]
  | swap x y rest =>
    simp only [turnsDue]
    omega
  | trans _ _ ih ih' => exact ih.trans ih'

private theorem turnsDue_later (fires queued : Nat) {now later : Nat} (h : now ≤ later)
    (asleep : List (Sleeper σ α)) :
    turnsDue fires later queued asleep ≤ turnsDue fires now queued asleep := by
  induction asleep with
  | nil => exact Nat.mul_le_mul_left queued (turnsLeft_anti fires h)
  | cons x rest ih => exact Nat.add_le_add_left ih _

private theorem turnsDue_first (fires queued : Nat) {now : Nat} {asleep others : List (Sleeper σ α)}
    {first : Sleeper σ α} (hfirst : earliest? asleep = some (first, others))
    (hnow : now ≤ first.wake) :
    turnsLeft fires first.wake + turnsDue fires first.wake queued others ≤
      turnsDue fires now queued asleep := by
  rw [turnsDue_perm fires now queued (earliest?_spec hfirst).1]
  exact Nat.add_le_add_left (turnsDue_later fires queued hnow others) _

private theorem turnsDue_append (fires now queued : Nat) (asleep : List (Sleeper σ α))
    (x : Sleeper σ α) : turnsDue fires now queued (asleep ++ [x]) =
      turnsDue fires now queued asleep + turnsLeft fires x.wake := by
  rw [turnsDue_perm fires now queued (List.perm_append_singleton x asleep), turnsDue]
  exact Nat.add_comm _ _

private theorem turnsDue_startAt (fires now queued : Nat) (asleep : List (Sleeper σ α))
    (activities : List (Activity σ α)) :
    turnsDue fires now queued (asleep ++ startAt now activities) =
      turnsDue fires now (queued + activities.length) asleep := by
  induction asleep with
  | nil =>
    induction activities with
    | nil => rfl
    | cons a rest ih =>
      simp only [startAt, List.map_cons, List.nil_append, turnsDue, List.length_cons] at ih ⊢
      rw [ih, ← Nat.add_assoc, Nat.succ_mul]
      exact Nat.add_comm _ _
  | cons x rest ih => exact congrArg (_ + ·) ih

/-- Results of the jobs of keys: of all of them unless one of the results is fatal. -/
def ResultsOf (fatal : α → Bool) (result : κ → α → Prop) (keys : Multiset κ) (results : List α) :
    Prop :=
  ∃ done left, keys = done + left ∧ Multiset.Rel result done results ∧
    (left = 0 ∨ ∃ a ∈ results, fatal a = true)

variable {fatal : α → Bool} {keys : Multiset κ} {results : List α} {k : κ} {a : α}

theorem ResultsOf.nil : ResultsOf fatal result 0 [] := ⟨0, 0, rfl, .zero, .inl rfl⟩

theorem ResultsOf.cons (ha : result k a) (h : ResultsOf fatal result keys results) :
    ResultsOf fatal result (k ::ₘ keys) (a :: results) := by
  obtain ⟨done, left, rfl, hdone, hleft⟩ := h
  refine ⟨k ::ₘ done, left, (Multiset.cons_add k done left).symm, .cons ha hdone, ?_⟩
  exact hleft.imp_right fun ⟨b, hb, hfatal⟩ => ⟨b, List.mem_cons_of_mem a hb, hfatal⟩

theorem ResultsOf.of_fatal (ha : result k a) (hfatal : fatal a = true) (keys : Multiset κ) :
    ResultsOf fatal result (k ::ₘ keys) [a] :=
  ⟨{k}, keys, rfl, .cons ha .zero, .inr ⟨a, List.mem_singleton_self a, hfatal⟩⟩

theorem ResultsOf.complete (h : ResultsOf fatal result keys results)
    (hnone : ∀ a ∈ results, fatal a = false) : Multiset.Rel result keys results := by
  obtain ⟨done, left, rfl, hdone, rfl | ⟨a, ha, hfatal⟩⟩ := h
  · rwa [Multiset.add_zero]
  · rw [hnone a ha] at hfatal
    cases hfatal

theorem ResultsOf.exists_key (h : ResultsOf fatal result keys results) (ha : a ∈ results) :
    ∃ k ∈ keys, result k a := by
  obtain ⟨done, left, rfl, hdone, -⟩ := h
  obtain ⟨k, hk, hresult⟩ := Multiset.exists_mem_of_rel_of_mem (Multiset.rel_flip.mpr hdone) ha
  exact ⟨k, Multiset.mem_add.mpr (.inl hk), hresult⟩

/-- A pool under way: its sleepers do the jobs of some keys and its queue those of others. -/
structure Doing (start fires : Instant) (inv : σ → Prop) (result : κ → α → Prop) (now : Instant)
    (ka kq : Multiset κ) (asleep : List (Sleeper σ α)) (queue : List (Activity σ α)) (s : σ) :
    Prop where
  sleepers : Multiset.Rel (Sleeper.DoesJob start fires inv result now) ka asleep
  queued : Multiset.Rel (WillDoJob start fires inv result) kq queue
  worker : asleep = [] → queue = []
  state : inv s

section Steps

variable {now : Instant} {ka kq : Multiset κ} {asleep others : List (Sleeper σ α)}
variable {queue : List (Activity σ α)} {s s' : σ} {first : Sleeper σ α}

private theorem doesJob_startAt {ks : Multiset κ} {activities : List (Activity σ α)}
    (h : Multiset.Rel (WillDoJob start fires inv result) ks activities)
    (hplaced : Placed start fires now) :
    Multiset.Rel (Sleeper.DoesJob start fires inv result now) ks (startAt now activities) := by
  rw [startAt, ← Multiset.map_coe, Multiset.rel_map_right]
  exact h.mono fun _ _ a _ hjob => ⟨Nat.le_refl now, hplaced, hjob now hplaced⟩

theorem Doing.starts {n : Nat} (hn : 0 < n)
    (hasleep : Multiset.Rel (Sleeper.DoesJob start fires inv result now) ka asleep)
    (hqueue : Multiset.Rel (WillDoJob start fires inv result) kq queue)
    (hplaced : Placed start fires now) (hs : inv s) :
    ∃ ka' kq', ka' + kq' = ka + kq ∧ Doing start fires inv result now ka' kq'
      (asleep ++ startAt now (queue.take n)) (queue.drop n) s := by
  rw [← List.take_append_drop n queue, ← Multiset.coe_add] at hqueue
  obtain ⟨kt, kd, htake, hdrop, rfl⟩ := Multiset.rel_add_right.mp hqueue
  refine ⟨ka + kt, kd, Multiset.add_assoc .., ?_, hdrop, ?_, hs⟩
  · rw [← Multiset.coe_add]
    exact hasleep.add (doesJob_startAt htake hplaced)
  · intro hnone
    obtain ⟨-, hnone⟩ := List.append_eq_nil_iff.mp hnone
    rcases List.take_eq_nil_iff.mp (List.map_eq_nil_iff.mp hnone) with rfl | rfl
    · cases hn
    · exact List.drop_nil

theorem Doing.over (h : Doing start fires inv result now ka kq [] queue s) : ka + kq = 0 := by
  have hqueue := h.queued
  rw [h.worker rfl] at hqueue
  rw [Multiset.rel_zero_right.mp h.sleepers, Multiset.rel_zero_right.mp hqueue, Multiset.add_zero]

/-- Of the jobs of sleepers, the one that wakes first is done by the first sleeper. -/
theorem Doing.first_does (h : Doing start fires inv result now ka kq asleep queue s)
    (hfirst : earliest? asleep = some (first, others)) :
    ∃ k rest, ka = k ::ₘ rest ∧ first.DoesJob start fires inv result now k ∧
      Multiset.Rel (Sleeper.DoesJob start fires inv result first.wake) rest others := by
  obtain ⟨hperm, hleast⟩ := earliest?_spec hfirst
  have hasleep := h.sleepers
  rw [Multiset.coe_eq_coe.mpr hperm, ← Multiset.cons_coe] at hasleep
  obtain ⟨k, rest, hk, hrest, rfl⟩ := Multiset.rel_cons_right.mp hasleep
  refine ⟨k, rest, rfl, hk, hrest.mono fun _ _ x hx hjob => ?_⟩
  exact ⟨hleast x (Multiset.mem_coe.mp hx), hjob.placed, hjob.does⟩

/-- The first sleeper falls asleep again, and has fewer turns left. -/
theorem Doing.sleeps (h : Doing start fires inv result now ka kq asleep queue s)
    (hfirst : earliest? asleep = some (first, others)) {wake : Instant} {left : Activity σ α}
    (hadv : first.rest.advance first.wake s = (.asleep wake left, s')) :
    Doing start fires inv result first.wake ka kq (others ++ [⟨wake, left⟩]) queue s' ∧
      turnsDue fires first.wake queue.length (others ++ [⟨wake, left⟩]) <
        turnsDue fires now queue.length asleep := by
  obtain ⟨k, rest, rfl, hjob, hothers⟩ := h.first_does hfirst
  have hturn := advance_ensures hjob.does h.state
  rw [hadv] at hturn
  obtain ⟨⟨hlt, hpace, hleft⟩, hkeep⟩ := hturn
  refine ⟨⟨?_, h.queued, fun hnone => by simp at hnone, hkeep⟩, ?_⟩
  · rw [Multiset.coe_eq_coe.mpr (List.perm_append_singleton _ others), ← Multiset.cons_coe]
    exact .cons ⟨Nat.le_of_lt hlt, hjob.placed.tick hlt hpace, hleft⟩ hothers
  · have hdue := turnsDue_first fires queue.length hfirst hjob.later
    have hfewer := turnsLeft_sleep hpace hlt
    rw [turnsDue_append]
    dsimp only
    omega

/-- The first sleeper ends with a result of its job, and the next activity in the queue, if there is
one, is started in its place. -/
theorem Doing.finishes (h : Doing start fires inv result now ka kq asleep queue s)
    (hfirst : earliest? asleep = some (first, others)) {a : α}
    (hadv : first.rest.advance first.wake s = (.finished a, s')) :
    ∃ k ka' kq', ka + kq = k ::ₘ (ka' + kq') ∧ result k a ∧
      Doing start fires inv result first.wake ka' kq'
        (others ++ startAt first.wake (queue.take 1)) (queue.drop 1) s' ∧
      turnsDue fires first.wake (queue.drop 1).length
          (others ++ startAt first.wake (queue.take 1)) <
        turnsDue fires now queue.length asleep := by
  obtain ⟨k, rest, rfl, hjob, hothers⟩ := h.first_does hfirst
  have hturn := advance_ensures hjob.does h.state
  rw [hadv] at hturn
  obtain ⟨hresult, hkeep⟩ := hturn
  obtain ⟨ka', kq', hkeys, hdoing⟩ :=
    Doing.starts Nat.one_pos hothers h.queued hjob.placed hkeep
  refine ⟨k, ka', kq', ?_, hresult, hdoing, ?_⟩
  · rw [hkeys, Multiset.cons_add]
  · have hdue := turnsDue_first fires queue.length hfirst hjob.later
    have hpos := turnsLeft_pos fires first.wake
    have hlength : (queue.drop 1).length + (queue.take 1).length = queue.length := by
      rw [Nat.add_comm, ← List.length_append, List.take_append_drop]
    rw [turnsDue_startAt, hlength]
    omega

end Steps

/-- With turns enough every activity of a pool is finished and yields a result of its job, unless a
fatal result comes before. -/
theorem serve_results {turns : Nat} {now : Instant} {asleep : List (Sleeper σ α)}
    {queue : List (Activity σ α)} {results : List α} {s : σ} {ka kq : Multiset κ}
    (h : Doing start fires inv result now ka kq asleep queue s)
    (hturns : turnsDue fires now queue.length asleep ≤ turns) :
    ∃ new, (serve fatal turns now asleep queue results s).results = results ++ new ∧
      ResultsOf fatal result (ka + kq) new ∧
      inv (serve fatal turns now asleep queue results s).state := by
  -- each turn is paid for: whoever sleeps again has fewer left, whoever ends gives up its own
  induction turns generalizing now asleep queue results s ka kq with
  | zero =>
    have hnone : asleep = [] := by
      cases asleep with
      | nil => rfl
      | cons x rest =>
        rw [turnsDue] at hturns
        have := turnsLeft_pos fires x.wake
        omega
    subst hnone
    refine ⟨[], (List.append_nil results).symm, ?_, h.state⟩
    rw [h.over]
    exact .nil
  | succ turns ih =>
    simp only [serve]
    cases hfirst : earliest? asleep with
    | none =>
      obtain rfl := earliest?_eq_none hfirst
      refine ⟨[], (List.append_nil results).symm, ?_, h.state⟩
      rw [h.over]
      exact .nil
    | some found =>
      obtain ⟨first, others⟩ := found
      obtain ⟨_, _, _, hjob, _⟩ := h.first_does hfirst
      simp only [Nat.max_eq_right hjob.later]
      rcases hadv : first.rest.advance first.wake s with ⟨a | ⟨wake, left⟩, s'⟩
      · obtain ⟨k, ka', kq', hkeys, hresult, hdoing, hfewer⟩ := h.finishes hfirst hadv
        rw [hkeys]
        dsimp only
        split
        · rename_i hfatal
          exact ⟨[a], rfl, .of_fatal hresult hfatal _, hdoing.state⟩
        · obtain ⟨new, hnew, hof, hinv⟩ := @ih _ _ _ (results ++ [a]) _ _ _ hdoing (by omega)
          refine ⟨a :: new, ?_, hof.cons hresult, hinv⟩
          rw [hnew, List.append_assoc, List.singleton_append]
      · obtain ⟨hdoing, hfewer⟩ := h.sleeps hfirst hadv
        exact ih hdoing (by omega)

/-- A pool does every job unless a result is fatal: its results are those of its activities, in some
order. -/
theorem runPool_results {workers : Nat} {horizon now : Instant} {keys : List κ}
    {job : κ → Activity σ α} {s : σ} (hfires : fires ≤ timer horizon) (hs : inv s)
    (hjobs : ∀ k ∈ keys, WillDoJob now fires inv result k (job k)) :
    ResultsOf fatal result keys (runPool fatal workers horizon now (keys.map job) s).results ∧
      inv (runPool fatal workers horizon now (keys.map job) s).state := by
  have hqueue : Multiset.Rel (WillDoJob now fires inv result) keys (keys.map job : List _) := by
    rw [← Multiset.map_coe, Multiset.rel_map_right]
    exact Multiset.rel_refl_of_refl_on hjobs
  have hplaces : 0 < max workers 1 := Nat.lt_of_lt_of_le Nat.one_pos (Nat.le_max_right _ _)
  have hnobody : Multiset.Rel (Sleeper.DoesJob now fires inv result now) 0
      (([] : List (Sleeper σ α)) : Multiset (Sleeper σ α)) := .zero
  obtain ⟨ka, kq, hkeys, hdoing⟩ :=
    Doing.starts hplaces hnobody hqueue ⟨Nat.le_refl now, .inl rfl⟩ hs
  rw [Multiset.zero_add] at hkeys
  have hturns : turnsDue fires now ((keys.map job).drop (max workers 1)).length
      ([] ++ startAt now ((keys.map job).take (max workers 1))) ≤
        (keys.map job).length * ((horizon - now) / 1000000 + 3) := by
    rw [turnsDue_startAt, Nat.add_comm, ← List.length_append, List.take_append_drop, turnsDue]
    exact Nat.mul_le_mul_left _ (turnsLeft_le now hfires)
  obtain ⟨new, hnew, hof, hinv⟩ := serve_results hdoing hturns
  rw [List.nil_append] at hnew
  rw [← hkeys]
  exact ⟨hnew ▸ hof, hinv⟩

end Pools

end ChainAudit.Schedule

import ChainAudit.Proofs.Clock
import ChainAudit.Signal
import Mathlib.Order.Bounds.Basic

/-!
# When signals fire

Whether a signal is due can be asked at any instant. Who waits for it learns of its deadline from a
timer, so by the end of the millisecond in which the deadline comes: that is when it fires. Both
ways to learn of it agree: a wait is over in the first millisecond at the end of which the signal is
due, and is never over if that never comes.
-/

namespace ChainAudit

open ChainAudit.Clock

theorem earlier_left (first : Instant) (second : Option Instant) :
    ∃ t, earlier (some first) second = some t ∧ t ≤ first := by
  cases second with
  | none => exact ⟨first, rfl, Nat.le_refl _⟩
  | some second => exact ⟨min first second, rfl, Nat.min_le_left _ _⟩

theorem earlier_right (first : Option Instant) (second : Instant) :
    ∃ t, earlier first (some second) = some t ∧ t ≤ second := by
  cases first with
  | none => exact ⟨second, rfl, Nat.le_refl _⟩
  | some first => exact ⟨min first second, rfl, Nat.min_le_right _ _⟩

namespace Signal

theorem fires?_endingBy (signal : Signal) (deadline : Instant) :
    ∃ fires, (signal.endingBy deadline).fires? = some fires ∧ fires ≤ timer deadline := by
  obtain ⟨d, hd, hdle⟩ := earlier_right signal.deadline deadline
  obtain ⟨t, ht, htle⟩ := earlier_left (timer d) (signal.endingBy deadline).cancelledAt?
  refine ⟨t, ?_, Nat.le_trans htle (timer_mono hdle)⟩
  have hdeadline : (signal.endingBy deadline).deadline = some d := hd
  rw [fires?, hdeadline, ← ht]
  rfl

theorem fires?_of_cancelled {signal : Signal} {t : Instant} (h : signal.cancelledAt? = some t)
    (deadline : Instant) :
    ∃ fires, (signal.endingBy deadline).fires? = some fires ∧ fires ≤ t := by
  have hcancelled : (signal.endingBy deadline).cancelledAt? = some t := h
  rw [fires?, hcancelled]
  exact earlier_right _ t

theorem fires?_of_isFired {signal : Signal} {t : Instant} (h : signal.isFired t = true) :
    ∃ fires, signal.fires? = some fires ∧ fires ≤ timer t := by
  rw [isFired, Bool.or_eq_true, Option.any_eq_true, Option.any_eq_true] at h
  rcases h with ⟨deadline, hdeadline, hle⟩ | ⟨cancelled, hcancelled, hle⟩
  · obtain ⟨fires, hfires, hearly⟩ := earlier_left (timer deadline) signal.cancelledAt?
    refine ⟨fires, ?_, Nat.le_trans hearly (timer_mono (of_decide_eq_true hle))⟩
    rw [← hfires, fires?, hdeadline]
    rfl
  · obtain ⟨fires, hfires, hearly⟩ := earlier_right (signal.deadline.map timer) cancelled
    refine ⟨fires, ?_, ?_⟩
    · rw [← hfires, fires?, hcancelled]
    · exact Nat.le_trans hearly (Nat.le_trans (of_decide_eq_true hle) (le_timer t))

section Deadlines

/-- A signal with these deadlines, set one after the other, and with a handle if there is one. -/
def given (handle : Option Handle) (deadlines : List Instant) : Signal :=
  deadlines.foldl (fun s deadline => s.endingBy deadline) ⟨handle.getD .kept, none⟩

private theorem endingBy_foldl (handle : Handle) (first : Instant) (deadlines : List Instant) :
    deadlines.foldl (fun s deadline => s.endingBy deadline) (⟨handle, some first⟩ : Signal) =
      ⟨handle, some (deadlines.foldl min first)⟩ := by
  induction deadlines generalizing first with
  | nil => rfl
  | cons d deadlines ih => exact ih (min first d)

theorem given_eq (handle : Option Handle) (deadlines : List Instant) :
    given handle deadlines = ⟨handle.getD .kept, deadlines.min?⟩ := by
  cases deadlines with
  | nil => rfl
  | cons d deadlines => exact endingBy_foldl _ d deadlines

theorem deadline_given {handle : Option Handle} {deadlines : List Instant} {d : Instant} :
    (given handle deadlines).deadline = some d ↔ d ∈ deadlines ∧ ∀ e ∈ deadlines, d ≤ e := by
  rw [given_eq]
  exact List.min?_eq_some_iff

theorem cancelledAt?_given {handle : Option Handle} {deadlines : List Instant} {c : Instant} :
    (given handle deadlines).cancelledAt? = some c ↔ handle = some (.cancelled c) := by
  rw [given_eq]
  rcases handle with _ | _ | _ | _ <;> simp [cancelledAt?]

end Deadlines

section Waiting

variable {signal copy : Signal} {now t t' r fires : Instant}

theorem isFired_iff : signal.isFired t = true ↔
    (∃ d, signal.deadline = some d ∧ d ≤ t) ∨ ∃ c, signal.cancelledAt? = some c ∧ c ≤ t := by
  simp [isFired, Option.any_eq_true]

/-- The copies of a signal. Some of them may have been given more deadlines. -/
inductive CopyOf (signal : Signal) : Signal → Prop
  | same : CopyOf signal signal
  | endingBy {copy : Signal} (h : CopyOf signal copy) (deadline : Instant) :
      CopyOf signal (copy.endingBy deadline)

private theorem isFired_endingBy (h : signal.isFired t = true) (deadline : Instant) :
    (signal.endingBy deadline).isFired t = true := by
  rcases isFired_iff.mp h with ⟨d, hd, hle⟩ | hcancelled
  · obtain ⟨e, he, hearly⟩ := earlier_left d (some deadline)
    refine isFired_iff.mpr (.inl ⟨e, ?_, Nat.le_trans hearly hle⟩)
    rw [← he, ← hd]
    rfl
  · exact isFired_iff.mpr (.inr hcancelled)

theorem isFired_later (h : signal.isFired t = true) (hcopy : signal.CopyOf copy) (hle : t ≤ t') :
    copy.isFired t' = true := by
  induction hcopy with
  | same =>
    rcases isFired_iff.mp h with ⟨d, hd, hdle⟩ | ⟨c, hc, hcle⟩
    · exact isFired_iff.mpr (.inl ⟨d, hd, Nat.le_trans hdle hle⟩)
    · exact isFired_iff.mpr (.inr ⟨c, hc, Nat.le_trans hcle hle⟩)
  | endingBy _ deadline ih => exact isFired_endingBy ih deadline

private theorem fires?_cases (h : signal.fires? = some fires) :
    (∃ d, signal.deadline = some d ∧ fires = timer d) ∨ signal.cancelledAt? = some fires := by
  rw [fires?] at h
  cases hd : signal.deadline with
  | none =>
    cases hc : signal.cancelledAt? with
    | none => simp [hd, hc, earlier] at h
    | some c => exact .inr (by simpa [hd, hc, earlier] using h)
  | some d =>
    cases hc : signal.cancelledAt? with
    | none => exact .inl ⟨d, rfl, by simpa [hd, hc, earlier, eq_comm] using h⟩
    | some c =>
      have hmin : min (timer d) c = fires := by simpa [hd, hc, earlier] using h
      rcases Nat.le_total (timer d) c with hle | hle
      · exact .inl ⟨d, rfl, by rw [← hmin, Nat.min_eq_left hle]⟩
      · exact .inr (by rw [← hmin, Nat.min_eq_right hle])

theorem isFired_of_fires? (h : signal.fires? = some fires) (hle : fires ≤ t) :
    signal.isFired t = true := by
  rcases fires?_cases h with ⟨d, hd, rfl⟩ | hc
  · exact isFired_iff.mpr (.inl ⟨d, hd, Nat.le_trans (le_timer d) hle⟩)
  · exact isFired_iff.mpr (.inr ⟨fires, hc, hle⟩)

/-- The whole milliseconds from an instant on at which a signal is due. -/
def FiredMillis (signal : Signal) (now : Instant) : Set Instant :=
  {t | now ≤ t ∧ t % 1000000 = 0 ∧ signal.isFired t = true}

private theorem fires?_le (h : signal.fires? = some fires) (ht : t ∈ signal.FiredMillis now) :
    fires ≤ t := by
  obtain ⟨-, hwhole, hfired⟩ := ht
  obtain ⟨f, hf, hle⟩ := fires?_of_isFired hfired
  rw [Option.some.inj (h.symm.trans hf), ← timer_of_whole hwhole]
  exact hle

/-- A wait that starts at `now` and is over at `r`: not before the signal is due, in the first
millisecond at the end of which it is, and at once where the handle is cancelled. -/
structure HeardAt (signal : Signal) (now r : Instant) : Prop where
  later : now ≤ r
  fired : signal.isFired r = true
  first : IsLeast (signal.FiredMillis now) (timer r)
  prompt : ∀ c, signal.cancelledAt? = some c → r ≤ max now c

theorem heardAt_of_resolves? (h : signal.resolves? now = some r) : signal.HeardAt now r := by
  obtain ⟨fires, hfires, rfl⟩ := Option.map_eq_some_iff.mp h
  have hlater : max now fires ≤ timer (max now fires) := le_timer _
  refine ⟨Nat.le_max_left _ _, isFired_of_fires? hfires (Nat.le_max_right _ _),
    ⟨⟨?_, ?_, ?_⟩, ?_⟩, ?_⟩
  · exact Nat.le_trans (Nat.le_max_left _ _) hlater
  · exact timer_whole _
  · exact isFired_of_fires? hfires (Nat.le_trans (Nat.le_max_right _ _) hlater)
  · intro t ht
    rw [← timer_of_whole ht.2.1]
    exact timer_mono (Nat.max_le.mpr ⟨ht.1, fires?_le hfires ht⟩)
  · intro c hc
    obtain ⟨f, hf, hle⟩ := earlier_right (signal.deadline.map timer) c
    rw [fires?, hc] at hfires
    rw [Option.some.inj (hfires.symm.trans hf)]
    exact Nat.max_le.mpr ⟨Nat.le_max_left _ _, Nat.le_trans hle (Nat.le_max_right _ _)⟩

theorem resolves?_eq_none_iff :
    signal.resolves? now = none ↔ ∀ t, now ≤ t → signal.isFired t = false := by
  rw [resolves?, Option.map_eq_none_iff]
  constructor
  · intro hnone t _
    rw [Bool.eq_false_iff]
    intro hfired
    obtain ⟨f, hf, -⟩ := fires?_of_isFired hfired
    cases hnone.symm.trans hf
  · intro hnever
    rw [Option.eq_none_iff_forall_ne_some]
    intro fires hfires
    have hfired := isFired_of_fires? hfires (Nat.le_max_right now fires)
    rw [hnever _ (Nat.le_max_left _ _)] at hfired
    cases hfired

/-- Where calls and cancellations come at whole milliseconds, a wait is over at the first of them at
which the signal is due. -/
theorem resolves?_eq_some_iff (hnow : now % 1000000 = 0)
    (hcancelled : ∀ c, signal.cancelledAt? = some c → c % 1000000 = 0) :
    signal.resolves? now = some r ↔ IsLeast (signal.FiredMillis now) r := by
  have hwhole : ∀ r, signal.resolves? now = some r → IsLeast (signal.FiredMillis now) r := by
    intro r hr
    have hfirst := (heardAt_of_resolves? hr).first
    obtain ⟨fires, hfires, rfl⟩ := Option.map_eq_some_iff.mp hr
    have hmillis : fires % 1000000 = 0 := by
      rcases fires?_cases hfires with ⟨d, -, rfl⟩ | hc
      · exact timer_whole d
      · exact hcancelled fires hc
    rwa [timer_of_whole (max_whole hnow hmillis)] at hfirst
  refine ⟨hwhole r, fun hr => ?_⟩
  cases hresolves : signal.resolves? now with
  | none =>
    have hfired := hr.1.2.2
    rw [resolves?_eq_none_iff.mp hresolves r hr.1.1] at hfired
    cases hfired
  | some r' => rw [(hwhole r' hresolves).unique hr]

end Waiting

/-- What a signal with a handle, if there is one, and with some deadlines does: its deadline is the
least one; it is due from that on, or from the instant on at which the handle is cancelled, and so
are its copies; a wait for it is over when it is first due, to the millisecond, and else never. -/
structure FiresAs (handle : Option Handle) (deadlines : List Instant) (signal : Signal) : Prop where
  deadline : ∀ d, signal.deadline = some d ↔ d ∈ deadlines ∧ ∀ e ∈ deadlines, d ≤ e
  fired : ∀ t, signal.isFired t = true ↔
    (∃ d, (d ∈ deadlines ∧ ∀ e ∈ deadlines, d ≤ e) ∧ d ≤ t) ∨
      ∃ c, handle = some (.cancelled c) ∧ c ≤ t
  stays : ∀ copy t t', signal.CopyOf copy → t ≤ t' → signal.isFired t = true →
    copy.isFired t' = true
  heard : ∀ now r, signal.resolves? now = some r → signal.HeardAt now r
  millis : ∀ now r, now % 1000000 = 0 → (∀ c, handle = some (.cancelled c) → c % 1000000 = 0) →
    (signal.resolves? now = some r ↔ IsLeast (signal.FiredMillis now) r)
  never : ∀ now, signal.resolves? now = none ↔ ∀ t, now ≤ t → signal.isFired t = false
  dropped : ∀ now t, handle = some (.dropped t) → deadlines = [] → signal.resolves? now = none

theorem given_firesAs (handle : Option Handle) (deadlines : List Instant) :
    FiresAs handle deadlines (given handle deadlines) where
  deadline _ := deadline_given
  fired t := by simp only [isFired_iff, deadline_given, cancelledAt?_given]
  stays _ _ _ hcopy hle h := isFired_later h hcopy hle
  heard _ _ := heardAt_of_resolves?
  millis _ _ hnow hc := resolves?_eq_some_iff hnow fun c h => hc c (cancelledAt?_given.mp h)
  never _ := resolves?_eq_none_iff
  dropped := by
    rintro now t rfl rfl
    rfl

example : (given (some (.dropped 7)) [3000000, 1500000]).resolves? 0 = some 2000000 := by decide

end Signal

end ChainAudit

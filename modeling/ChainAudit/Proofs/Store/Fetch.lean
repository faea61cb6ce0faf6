import ChainAudit.Proofs.Limiter.OnClock
import ChainAudit.Proofs.Store.Alone

/-!
# What fetches answer

A fetch waits for a token and then reads the store. Its answer is one that the store gives, in
states that the store may be in, or an error of its own. The latter comes only from a limiter that
limits, or from a read that takes longer than the time allowed; and only a limiter whose waits are
not on the clock lets a fetch break down.
-/

namespace ChainAudit.Store

open ChainAudit.Clock ChainAudit.Limiter ChainAudit.Schedule ChainAudit.Schedule.Activity
open ChainAudit.Text

variable [Quantity α] {l : Limiter α}

/-- What may become of a fetch through a limiter from a store that is in states of `known`, if it is
made at the place within a millisecond that an instant has. -/
structure MayFetch (store : BlockStore ω) (known : ω → Prop) (timeout : Span) (l : Limiter α)
    (place : Instant) (cid : String) (r : Fetched) : Prop where
  stored : ∀ bytes, r = .answered (.ok bytes) → ∃ s s', known s ∧ known s' ∧
    answerAt timeout cid place (store.answer cid s s') = .ok bytes
  passed : l = .unlimited → ∃ s s', known s ∧ known s' ∧
    r = .answered (answerAt timeout cid place (store.answer cid s s'))
  lost : r = .lost → ¬ l.OnClock

omit [Quantity α] in
theorem value_of_answerAt {timeout : Span} {cid : String} {now : Instant}
    {answer : Delayed (Except FetchError Bytes)} {bytes : Bytes}
    (h : answerAt timeout cid now answer = .ok bytes) : answer.value = .ok bytes := by
  unfold answerAt at h
  split at h
  · exact h
  · cases h

omit [Quantity α] in
theorem inTime_of_answerAt {timeout : Span} {cid : String} {now : Instant}
    {answer : Delayed (Except FetchError Bytes)} {bytes : Bytes}
    (h : answerAt timeout cid now answer = .ok bytes) : InTime timeout now answer := by
  unfold answerAt at h
  split at h
  · rename_i hin
    exact hin
  · cases h

/-- What is known of a limiter and of what lies behind it. -/
def Known (l : Limiter α) (known : ω → Prop) (s : Limited α ω) : Prop :=
  l.Reaches s.limiter ∧ known s.behind

section Reads

variable {store : BlockStore ω} {known : ω → Prop} {timeout : Span} {cid : String}
variable {place now asked : Instant} {s s' : ω}

/-- The answer of a read that waited for its token until `asked` and comes in time. -/
private theorem mayFetch_inTime (hs : known s) (hs' : known s') (hlater : now ≤ asked)
    (hplace : asked % 1000000 = place % 1000000)
    (hin : (store.answer cid s s').comesAt asked ≤ timerFrom asked (now + timeout.nanos)) :
    MayFetch store known timeout l place cid (.answered (store.answer cid s s').value) := by
  -- without the wait for its token it would come in time too
  have htime : InTime timeout asked (store.answer cid s s') :=
    Nat.le_trans hin (timerFrom_mono asked (Nat.add_le_add_right hlater timeout.nanos))
  have hanswer : answerAt timeout cid place (store.answer cid s s') =
      (store.answer cid s s').value := if_pos ((inTime_iff hplace timeout _).mp htime)
  refine ⟨?_, fun _ => ⟨s, s', hs, hs', congrArg _ hanswer.symm⟩, nofun⟩
  intro bytes hbytes
  exact ⟨s, s', hs, hs', hanswer.trans (Fetched.answered.inj hbytes)⟩

private theorem mayFetch_late (hs : known s) (hplace : asked % 1000000 = place % 1000000)
    (hatOnce : l = .unlimited → asked = now)
    (hlate : ¬ (store.answer cid s s).comesAt asked ≤ timerFrom asked (now + timeout.nanos)) :
    MayFetch store known timeout l place cid
      (.answered (.error (.transport (timedOut cid timeout)))) := by
  refine ⟨nofun, fun hl => ⟨s, s, hs, hs, ?_⟩, nofun⟩
  obtain rfl := hatOnce hl
  have hlate' : ¬ InTime timeout place (store.answer cid s s) :=
    fun hin => hlate ((inTime_iff hplace timeout _).mpr hin)
  rw [answerAt, if_neg hlate']

end Reads

/-- A fetch sleeps for whole milliseconds only, so it keeps its place. -/
theorem fetch_ensures {store : BlockStore ω} {known : ω → Prop} (timeout : Span) (l : Limiter α)
    (cid : String) {place now : Instant} (hnow : now % 1000000 = place % 1000000)
    (hknown : ∀ s, known s → known (store.read cid s).2) :
    (fetch store timeout cid : Activity (Limited α ω) _).Ensures (Ticking none) (Known l known)
      (fun r t => MayFetch store known timeout l place cid r ∧ t % 1000000 = place % 1000000)
      now := by
  refine ensures_bind (ensures_clock (ensures_bind ?_))
  have hacquire : (Limited.onLimiter (acquire (now + timeout.nanos)) :
      Activity (Limited α ω) _).Ensures (Ticking none) (Known l known) (Acquired l now) now :=
    ensures_within (fun _ hs => hs.1) (fun _ _ hs hl => ⟨hl, hs.2⟩) (acquire_ensures l _ now)
  refine ensures_mono (ensures_since (Nat.le_refl now) hacquire) fun r asked hr => ?_
  obtain ⟨hlater, hplace, hatOnce, hlost⟩ := hr
  have hasked : asked % 1000000 = place % 1000000 := hplace.trans hnow
  cases r with
  | lost =>
    exact ensures_pure ⟨⟨nofun, fun hl => (nomatch (hatOnce hl).1), fun _ => hlost rfl⟩, hasked⟩
  | tooLate => exact ensures_pure ⟨⟨nofun, fun hl => (nomatch (hatOnce hl).1), nofun⟩, hasked⟩
  | granted =>
    refine ensures_bind ?_
    -- a read of what lies behind the limiter is a read on the whole state
    change ((inquire fun _ (s : Limited α ω) =>
      ((⟨fun found => (store.read cid s.behind).1.value found.behind,
        (store.read cid s.behind).1.delay⟩ : Delayed (Limited α ω → Except FetchError Bytes)),
        { s with behind := (store.read cid s.behind).2 })).limit
          (now + timeout.nanos)).Ensures _ _ _ _
    refine ensures_limit_inquire fun s hs => ⟨⟨hs.1, hknown _ hs.2⟩, ?_⟩
    split
    · rename_i hin
      intro found hfound
      exact ensures_pure ⟨mayFetch_inTime hs.2 hfound.2 hlater hasked hin,
        (Delayed.comesAt_place asked _).trans hasked⟩
    · rename_i hlate
      exact ensures_pure ⟨mayFetch_late hs.2 hasked (fun hl => (hatOnce hl).2) hlate,
        (timerFrom_place asked _).trans hasked⟩

end ChainAudit.Store

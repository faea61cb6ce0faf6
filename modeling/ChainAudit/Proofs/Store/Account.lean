import ChainAudit.Http.Gateway
import ChainAudit.Proofs.Limiter.Accepted
import ChainAudit.Proofs.Schedule.Company
import ChainAudit.Proofs.Store.Listing
import ChainAudit.Store.Memory

/-!
# What a fetch takes

A fetch takes a token from the limiter and reads the store, and it shares both with others. If the
limiter tallies its tokens and the store lists its reads, a fetch can note what it takes itself. It
is over by its deadline; it takes nothing if it fails for want of a token or breaks down, and
otherwise the token and then the read that it is there for.
-/

namespace ChainAudit.Store

open ChainAudit.Clock ChainAudit.Limiter ChainAudit.Schedule ChainAudit.Schedule.Activity
open ChainAudit.Text

/-- What can be taken. -/
inductive Deed where
  | token
  | read (cid : String)
  deriving DecidableEq, Repr

/-- The tokens taken from one limiter to another. -/
def tokens (l l' : Limiter (Tallied α)) : List Deed :=
  List.replicate (l'.tally - l.tally) .token

/-- A state that shows all that was ever taken. -/
abbrev Watched (α ω : Type) := Limited (Tallied α) (ω × List String)

def Watched.plain (s : Watched α ω) : Limited α ω := ⟨s.limiter.amounts, s.behind.1⟩

/-- What was taken from one state to another. -/
def deeds (s t : Watched α ω) : List Deed :=
  tokens s.limiter t.limiter ++ (newReads s t).map .read

theorem tokens_idle (l : Limiter (Tallied α)) : tokens l l = [] := by
  rw [tokens, Nat.sub_self, List.replicate_zero]

theorem deeds_idle (s : Watched α ω) : deeds s s = [] := by
  rw [deeds, tokens_idle, newReads_idle, List.map_nil, List.append_nil]

theorem deeds_limiter (s : Watched α ω) (l : Limiter (Tallied α)) :
    deeds s { s with limiter := l } = tokens s.limiter l := by
  have hreads : newReads s { s with limiter := l } = [] := List.drop_length
  rw [deeds, hreads, List.map_nil, List.append_nil]

section Serving

variable [Quantity α] {l : Limiter (Tallied α)} {deadline now : Instant}

theorem tokens_of_granted {l' : Limiter (Tallied α)} (hl : l.Reaches l')
    (h : (l'.ask deadline now).1 = .ends .granted) :
    tokens l' (l'.ask deadline now).2 = List.replicate l.price .token := by
  rw [tokens, ask_tally, if_pos h, Nat.add_sub_cancel_left, hl.price]

theorem tokens_of_not_granted {l' : Limiter (Tallied α)}
    (h : (l'.ask deadline now).1 ≠ .ends .granted) : tokens l' (l'.ask deadline now).2 = [] := by
  rw [tokens, ask_tally, if_neg h, Nat.sub_self, List.replicate_zero]

/-- What a call for a token comes to, with the notes taken up to its end. -/
structure Served (l : Limiter (Tallied α)) (notes : List Deed) (r : Limiter.Result × List Deed) :
    Prop where
  granted : r.1 = .granted → r.2 = notes ++ List.replicate l.price .token
  refused : r.1 ≠ .granted → r.2 = notes
  lost : r.1 = .lost → ¬ l.amounts.OnClock

/-- While a token is waited for the timer of the deadline goes on running. -/
theorem askUpTo_serves (times : Nat) (notes : List Deed) (now : Instant) :
    ((askUpTo deadline times : Activity (Limiter (Tallied α)) _).noting tokens notes).Ensures
      (Ticking none) l.Reaches
      (fun r t => timerFrom t deadline = timerFrom now deadline ∧ Served l notes r) now := by
  induction times generalizing now with
  | zero => exact ⟨rfl, nofun, fun _ => rfl, nofun⟩
  | succ times ih =>
    refine ensures_noting_bind (ensures_noting_access fun l' hl => ⟨hl.ask deadline now, ?_⟩)
    cases hreply : (l'.ask deadline now).1 with
    | ends r =>
      refine ensures_noting_pure ⟨rfl, ?_, ?_, ?_⟩
      · rintro rfl
        exact congrArg (notes ++ ·) (tokens_of_granted hl hreply)
      · intro hr
        have hnone : (l'.ask deadline now).1 ≠ .ends .granted :=
          fun h => hr (Reply.ends.inj (hreply.symm.trans h))
        exact (congrArg (notes ++ ·) (tokens_of_not_granted hnone)).trans (List.append_nil notes)
      · rintro rfl hclock
        refine hclock l'.amounts hl.amounts deadline now ?_
        rw [← (ask_amounts deadline now l').1, hreply]
    | wait due =>
      -- the request has taken nothing, and the wait ends by the timer of the deadline
      rw [tokens_of_not_granted (by rw [hreply]; nofun), List.append_nil]
      have hsame : timerFrom (timerFrom now due) deadline = timerFrom now deadline :=
        timerFrom_later (le_timerFrom now due) (timerFrom_place now due)
          (timerFrom_mono now (ask_wait hreply).2)
      refine ensures_noting_bind (ensures_noting_sleepUntil tokens_idle (ensures_mono (ih _) ?_))
      exact fun r t hr => ⟨hr.1.trans hsame, hr.2⟩

theorem acquire_serves (deadline : Instant) (notes : List Deed) (now : Instant) :
    ((acquire deadline : Activity (Limiter (Tallied α)) _).noting tokens notes).Ensures
      (Ticking none) l.Reaches
      (fun r t => timerFrom t deadline = timerFrom now deadline ∧ Served l notes r) now :=
  ensures_noting_bind (ensures_noting_clock tokens_idle (askUpTo_serves _ notes now))

end Serving

/-- A store does not fail for want of a token. -/
def BlockStore.NeverLimits (store : BlockStore ω) : Prop :=
  ∀ cid s found, (store.read cid s).1.value found ≠ .error .limit

theorem Memory.store_neverLimits : Memory.store.NeverLimits := by
  intro cid m found h
  have hcontent : found.content cid = .error .limit := h
  unfold Memory.content at hcontent
  split at hcontent
  · cases hcontent
  · split at hcontent
    · cases hcontent
    · cases hcontent

theorem answerOf_ne_limit (cid : String) (answer : Except Http.ExchangeError Http.Response) :
    Http.answerOf cid answer ≠ .error .limit := by
  intro h
  unfold Http.answerOf at h
  split at h
  · cases h
  · cases h
  · unfold Http.contentOf at h
    split at h
    · cases h
    · split at h
      · cases h
      · dsimp only at h
        split at h
        · cases h
        · cases h

theorem gateway_neverLimits (n : Http.Network ω) (base : String) :
    (Http.gateway n base).NeverLimits := by
  intro cid s found
  unfold Http.gateway
  dsimp only
  exact answerOf_ne_limit cid _

section Fetching

variable [Quantity α]

/-- A fetch that notes what it takes. -/
def notedFetch (store : BlockStore ω) (timeout : Span) (cid : String) :
    Activity (Watched α ω) (Fetched × List Deed) :=
  (fetch (BlockStore.listing store) timeout cid).noting deeds []

/-- What a fetch has taken at its end. -/
structure Accounted (l : Limiter α) (cid : String) (r : Fetched) (taken : List Deed) : Prop where
  refused : r = .answered (.error .limit) → taken = []
  lost : r = .lost → taken = [] ∧ ¬ l.OnClock
  answered : r ≠ .answered (.error .limit) → r ≠ .lost →
    taken = List.replicate l.price .token ++ [.read cid]

theorem notedFetch_plain (store : BlockStore ω) (timeout : Span) (cid : String) :
    (notedFetch store timeout cid : Activity (Watched α ω) _).Mirrors Watched.plain Prod.fst
      (fetch store timeout cid) := by
  have hplain : (fetch (BlockStore.listing store) timeout cid :
      Activity (Watched α ω) _).Mirrors Watched.plain id (fetch store timeout cid) :=
    fetch_mirrors
      (fun deadline => mirrors_within (acquire_amounts deadline) (fun _ => rfl) fun _ _ => rfl)
      (mirrors_within (get_listing store cid) (fun _ => rfl) fun _ _ => rfl) timeout
  exact mirrors_noting hplain deeds []

variable {store : BlockStore ω} {cid : String} {timeout : Span} {entered : Nat}
variable {l : Limiter (Tallied α)}

omit [Quantity α] in
theorem deeds_read (s : Watched α ω) :
    deeds s { s with behind := ((BlockStore.listing store).read cid s.behind).2 } =
      [.read cid] := by
  have hreads : newReads s { s with behind := ((BlockStore.listing store).read cid s.behind).2 } =
      [cid] := List.drop_left
  rw [deeds, tokens_idle, hreads, List.nil_append, List.map_singleton]

theorem notedFetch_ensures (hstore : store.NeverLimits) (cid : String)
    (hentered : entered % 1000000 = 0) (htimeout : timeout.nanos % 1000000 = 0) :
    (notedFetch store timeout cid : Activity (Watched α ω) _).Ensures (Ticking none)
      (fun s => l.Reaches s.limiter)
      (fun r t => t ≤ entered + timeout.nanos ∧ Accounted l.amounts cid r.1 r.2) entered := by
  have hdeadline : timerFrom entered (entered + timeout.nanos) = entered + timeout.nanos := by
    rw [timerFrom_whole hentered, timer_of_whole (by omega), Nat.max_eq_right (Nat.le_add_right _ _)]
  refine ensures_noting_bind (ensures_noting_clock deeds_idle ?_)
  have hacquire : ((Limited.onLimiter (acquire (entered + timeout.nanos)) :
      Activity (Watched α ω) _).noting deeds []).Ensures (Ticking none)
        (fun s => l.Reaches s.limiter)
        (fun r t => timerFrom t (entered + timeout.nanos) =
          timerFrom entered (entered + timeout.nanos) ∧ Served l [] r) entered :=
    ensures_noting_within deeds_limiter (fun _ hs => hs) (fun _ _ _ hl => hl)
      (acquire_serves _ [] entered)
  refine ensures_noting_bind (ensures_mono hacquire ?_)
  rintro ⟨r, notes⟩ asked ⟨hsame, hserved⟩
  rw [hdeadline] at hsame
  have hasked : asked ≤ entered + timeout.nanos :=
    (le_timerFrom asked _).trans hsame.le
  cases r with
  | lost =>
    obtain rfl : notes = [] := hserved.refused nofun
    exact ensures_noting_pure
      ⟨hasked, nofun, fun _ => ⟨rfl, hserved.lost rfl⟩, fun _ h => absurd rfl h⟩
  | tooLate =>
    obtain rfl : notes = [] := hserved.refused nofun
    exact ensures_noting_pure ⟨hasked, fun _ => rfl, nofun, fun h => absurd rfl h⟩
  | granted =>
    obtain rfl : notes = List.replicate l.price .token := hserved.granted rfl
    refine ensures_noting_bind ?_
    -- a read of what lies behind the limiter is a read on the whole state
    change (((inquire fun _ (s : Watched α ω) =>
      ((⟨fun found => ((BlockStore.listing store).read cid s.behind).1.value found.behind,
        ((BlockStore.listing store).read cid s.behind).1.delay⟩ :
          Delayed (Watched α ω → Except FetchError Bytes)),
        { s with behind := ((BlockStore.listing store).read cid s.behind).2 })).limit
          (entered + timeout.nanos)).noting deeds _).Ensures _ _ _ _
    refine ensures_noting_limit_inquire deeds_idle fun s hs => ⟨hs, ?_⟩
    rw [deeds_read, hsame, ← price_amounts]
    split
    · rename_i hin
      intro found _
      refine ensures_noting_pure ⟨hin, ?_, nofun, fun _ _ => rfl⟩
      intro hlimit
      exact absurd (Fetched.answered.inj hlimit) (hstore cid s.behind.1 found.behind.1)
    · exact ensures_noting_pure ⟨Nat.le_refl _, nofun, nofun, fun _ _ => rfl⟩

theorem fetch_keeps (store : BlockStore ω) (timeout : Span) (cid : String) (l : Limiter α) :
    (fetch store timeout cid : Activity (Limited α ω) _).Keeps fun s => l.Reaches s.limiter := by
  refine keeps_bind yields_clock fun now => ?_
  have hacquire : (Limited.onLimiter (acquire (now + timeout.nanos)) :
      Activity (Limited α ω) _).Keeps fun s => l.Reaches s.limiter :=
    keeps_within (fun _ hs => hs) (fun _ _ _ hl => hl) (acquire_keeps l _)
  refine keeps_bind hacquire fun r => ?_
  cases r with
  | tooLate => exact keeps_pure _
  | lost => exact keeps_pure _
  | granted =>
    have hask : (store.get cid).Keeps fun _ => True := keeps_inquire fun _ _ _ => trivial
    have hread : (Limited.onBehind (store.get cid) :
        Activity (Limited α ω) _).Keeps fun s => l.Reaches s.limiter :=
      keeps_within (fun _ _ => trivial) (fun _ _ hs _ => hs) hask
    refine keeps_bind (keeps_limit hread _) fun r => ?_
    cases r with
    | none => exact keeps_pure _
    | some _ => exact keeps_pure _

end Fetching

deriving instance DecidableEq for Fetched

/-- A store with one node, whose reads take five milliseconds. -/
def oneNode : Memory := (Memory.empty.put "a" [49]).delay "a" (.ofMillis 5)

/-- Three fetches that begin together, from a limiter that grants one token a second. -/
def threeFetches : Crowd (Fin 3) (Watched Float Memory) (Fetched × List Deed) :=
  ⟨0, fun _ => some (.since 0 (notedFetch Memory.store (.ofMillis 1005) "a")),
    ⟨(ofRate 0 (.perSecond 1.0 1)).tallied, oneNode, []⟩⟩

end ChainAudit.Store

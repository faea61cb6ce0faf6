import ChainAudit.Proofs.Schedule.Erasure
import ChainAudit.Store.Basic

/-!
# Lists of what is read

A store can keep a list of all that is read from it beside its state. With the list left out, a
fetch does the same as without it.
-/

namespace ChainAudit

open ChainAudit.Clock ChainAudit.Limiter ChainAudit.Schedule
open ChainAudit.Schedule.Activity ChainAudit.Store

def forget (s : Limited α (ω × List String)) : Limited α ω := ⟨s.limiter, s.behind.1⟩

def newReads (s t : Limited α (ω × List String)) : List String :=
  t.behind.2.drop s.behind.2.length

theorem newReads_idle (s : Limited α (ω × List String)) : newReads s s = [] := List.drop_length

/-- The store that lists what is read. -/
def BlockStore.listing (store : BlockStore ω) : BlockStore (ω × List String) where
  read cid s :=
    (⟨fun found => (store.read cid s.1).1.value found.1, (store.read cid s.1).1.delay⟩,
      (store.read cid s.1).2, s.2 ++ [cid])

theorem onLimiter_listing (a : Activity (Limiter α) β) :
    (Limited.onLimiter a : Activity (Limited α (ω × List String)) β).Mirrors forget id
      (Limited.onLimiter a) :=
  mirrors_within (mirrors_refl a) (fun _ => rfl) fun _ _ => rfl

theorem onBehind_listing {a : Activity (ω × List String) β} {a' : Activity ω β}
    (ha : a.Mirrors Prod.fst id a') :
    (Limited.onBehind a : Activity (Limited α (ω × List String)) β).Mirrors forget id
      (Limited.onBehind a') :=
  mirrors_within ha (fun _ => rfl) fun _ _ => rfl

theorem get_listing (store : BlockStore ω) (cid : String) :
    ((BlockStore.listing store).get cid).Mirrors Prod.fst id (store.get cid) :=
  mirrors_inquire (fun _ _ _ => rfl) (fun _ _ => rfl) fun _ _ => rfl

theorem fetch_mirrors [Quantity α] [Quantity β] {part : Limited α ω → Limited β ρ}
    {store : BlockStore ω} {store' : BlockStore ρ} {cid : String}
    (hlimiter : ∀ deadline,
      (Limited.onLimiter (acquire deadline) : Activity (Limited α ω) _).Mirrors part id
        (Limited.onLimiter (acquire deadline)))
    (hread : (Limited.onBehind (store.get cid) : Activity (Limited α ω) _).Mirrors part id
      (Limited.onBehind (store'.get cid))) (timeout : Span) :
    (fetch store timeout cid).Mirrors part id (fetch store' timeout cid) := by
  refine mirrors_bind mirrors_clock fun now => ?_
  refine mirrors_bind (hlimiter _) fun r => ?_
  cases r with
  | tooLate => exact mirrors_pure _
  | lost => exact mirrors_pure _
  | granted =>
    refine mirrors_bind (mirrors_limit hread _) fun found => ?_
    cases found with
    | none => exact mirrors_pure _
    | some _ => exact mirrors_pure _

theorem fetch_listing [Quantity α] (store : BlockStore ω) (timeout : Span) (cid : String) :
    (fetch (BlockStore.listing store) timeout cid :
      Activity (Limited α (ω × List String)) _).Mirrors forget id (fetch store timeout cid) :=
  fetch_mirrors (fun _ => onLimiter_listing _) (onBehind_listing (get_listing store cid)) timeout

end ChainAudit

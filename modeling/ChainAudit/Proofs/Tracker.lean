import ChainAudit.Proofs.Chain.Head
import ChainAudit.Proofs.Table
import ChainAudit.Tracker

/-!
# What is remembered

A commit for one project leaves what is remembered of the others as it was, and the commit of a
complete walk brings nothing new when it is repeated.
-/

namespace ChainAudit

theorem Tracker.get?_commit (project other : String) (height : Chain.Height) (complete : Bool)
    (seenAt : Clock.Moment) (t : Tracker) :
    (t.commit project height complete seenAt).get? other =
      if other = project then some (observed height complete seenAt (t.get? project))
      else t.get? other :=
  Table.get?_put project other _ t

namespace Tracker

theorem le_raise (height : Chain.Height) (verified : Option Chain.Height) :
    height ≤ raise height verified := by
  cases verified with
  | none => exact Int64.le_refl height
  | some v =>
    change height ≤ if v ≤ height then height else v
    split
    · exact Int64.le_refl height
    · rename_i hbelow
      exact (Int64.le_total v height).resolve_left hbelow

theorem raise_of_le {height v : Chain.Height} (h : height ≤ v) : raise height (some v) = v := by
  change (if v ≤ height then height else v) = v
  split
  · rename_i hbelow
    exact Int64.le_antisymm h hbelow
  · rfl

theorem observe_of_le {known : Chain.KnownHead} {height : Chain.Height} (h : height ≤ known.height)
    (seenAt : Clock.Moment) : known.observe height seenAt = known :=
  if_neg (Int64.not_lt.mpr h)

theorem le_observe (known : Chain.KnownHead) (height : Chain.Height) (seenAt : Clock.Moment) :
    height ≤ (known.observe height seenAt).height := by
  unfold Chain.KnownHead.observe
  split
  · exact Int64.le_refl height
  · rename_i hbelow
    exact Int64.not_lt.mp hbelow

theorem observed_head (height : Chain.Height) (complete : Bool) (seenAt : Clock.Moment)
    (t : Option Tracked) : (observed height complete seenAt t).head =
      Chain.KnownHead.next (t.map (·.head)) ⟨height, seenAt⟩ := by
  cases t <;> rfl

theorem observed_verified (height : Chain.Height) (seenAt : Clock.Moment) (t : Option Tracked) :
    ∃ v, (observed height true seenAt t).verified = some v ∧ height ≤ v := by
  cases t with
  | none => exact ⟨height, rfl, Int64.le_refl height⟩
  | some t => exact ⟨raise height t.verified, rfl, le_raise height t.verified⟩

theorem observed_again (height : Chain.Height) (seenAt seenLater : Clock.Moment)
    (t : Option Tracked) :
    observed height true seenLater (some (observed height true seenAt t)) =
      observed height true seenAt t := by
  obtain ⟨v, hv, hle⟩ := observed_verified height seenAt t
  have hhead : height ≤ (observed height true seenAt t).head.height := by
    cases t with
    | none => exact Int64.le_refl height
    | some t => exact le_observe t.head height seenAt
  generalize observed height true seenAt t = known at hv hhead ⊢
  obtain ⟨head, verified⟩ := known
  simp only at hv hhead
  subst hv
  simp only [observed, if_true, observe_of_le hhead, raise_of_le hle]

end Tracker

end ChainAudit

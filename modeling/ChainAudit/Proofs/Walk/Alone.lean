import ChainAudit.Proofs.Schedule.Alone
import ChainAudit.Walk

/-!
# Walks that run alone

One more node of a walk: what becomes of its fetch decides whether the walk ends there, and with what,
or goes on to the predecessor. A stop makes no difference to that; it can only take the answer away.
-/

namespace ChainAudit

open ChainAudit.Chain ChainAudit.Clock ChainAudit.Schedule ChainAudit.Store ChainAudit.Text

variable {fetch : String → Activity σ Fetched} {stop : Option Instant}
variable {depth left : Nat} {verified : Option Height} {cid : String} {visited : List Height}
variable {now ends : Instant} {s t : σ}

theorem run_walkOn_cancelled (hfetch : ((fetch cid).breakOff stop).run now s = (none, ends, t)) :
    (walkOn fetch stop depth verified (left + 1) cid visited).run now s =
      (⟨visited.reverse, .cancelled⟩, ends, t) := by
  simp [walkOn, hfetch]

theorem run_walkOn_lost (hfetch : ((fetch cid).breakOff stop).run now s = (some .lost, ends, t)) :
    (walkOn fetch stop depth verified (left + 1) cid visited).run now s =
      (⟨visited.reverse, .lost⟩, ends, t) := by
  simp [walkOn, hfetch]

theorem run_walkOn_unread {e : FetchError}
    (hfetch : ((fetch cid).breakOff stop).run now s = (some (.answered (.error e)), ends, t)) :
    (walkOn fetch stop depth verified (left + 1) cid visited).run now s =
      (⟨visited.reverse, .failed (.fetch cid e)⟩, ends, t) := by
  simp [walkOn, hfetch]

theorem run_walkOn_undecoded {bytes : Bytes} {fault : Json.Fault}
    (hfetch : ((fetch cid).breakOff stop).run now s = (some (.answered (.ok bytes)), ends, t))
    (hnode : Node.ofBytes bytes = .error fault) :
    (walkOn fetch stop depth verified (left + 1) cid visited).run now s =
      (⟨visited.reverse, .failed (.decode cid fault)⟩, ends, t) := by
  simp [walkOn, hfetch, hnode]

theorem run_walkOn_ended {bytes : Bytes} {node : Node} {ending : WalkEnd}
    (hfetch : ((fetch cid).breakOff stop).run now s = (some (.answered (.ok bytes)), ends, t))
    (hnode : Node.ofBytes bytes = .ok node) (hend : endAt? verified node = .error ending) :
    (walkOn fetch stop depth verified (left + 1) cid visited).run now s =
      (⟨(node.height :: visited).reverse, ending⟩, ends, t) := by
  simp [walkOn, hfetch, hnode, hend]

theorem run_walkOn_followed {bytes : Bytes} {node : Node} {previous : String}
    (hfetch : ((fetch cid).breakOff stop).run now s = (some (.answered (.ok bytes)), ends, t))
    (hnode : Node.ofBytes bytes = .ok node) (hend : endAt? verified node = .ok previous) :
    (walkOn fetch stop depth verified (left + 1) cid visited).run now s =
      (walkOn fetch stop depth verified left previous (node.height :: visited)).run ends t := by
  simp [walkOn, hfetch, hnode, hend]

theorem endAt?_ne_cancelled (node : Node) : endAt? verified node ≠ .error .cancelled := by
  unfold endAt?
  split
  · simp
  · split <;> simp

/-- After a fetch a walk ends, or it goes on from the predecessor, wherever it is stopped. -/
theorem run_walkOn_fetched (fetch : String → Activity σ Fetched) (depth left : Nat)
    (verified : Option Height) (cid : String) (visited : List Height) (r : Fetched) :
    (∃ w, w.ending ≠ .cancelled ∧ visited.reverse <+: w.heights ∧
        ∀ stop now ends s t, ((fetch cid).breakOff stop).run now s = (some r, ends, t) →
          (walkOn fetch stop depth verified (left + 1) cid visited).run now s = (w, ends, t)) ∨
      ∃ height previous, ∀ stop now ends s t,
        ((fetch cid).breakOff stop).run now s = (some r, ends, t) →
          (walkOn fetch stop depth verified (left + 1) cid visited).run now s =
            (walkOn fetch stop depth verified left previous (height :: visited)).run ends t := by
  match r with
  | .lost =>
    refine .inl ⟨⟨visited.reverse, .lost⟩, by simp, List.prefix_rfl, ?_⟩
    intro stop now ends s t hfetch
    exact run_walkOn_lost hfetch
  | .answered (.error e) =>
    refine .inl ⟨⟨visited.reverse, .failed (.fetch cid e)⟩, by simp, List.prefix_rfl, ?_⟩
    intro stop now ends s t hfetch
    exact run_walkOn_unread hfetch
  | .answered (.ok bytes) =>
    cases hnode : Node.ofBytes bytes with
    | error fault =>
      refine .inl ⟨⟨visited.reverse, .failed (.decode cid fault)⟩, by simp, List.prefix_rfl, ?_⟩
      intro stop now ends s t hfetch
      exact run_walkOn_undecoded hfetch hnode
    | ok node =>
      cases hend : endAt? verified node with
      | error ending =>
        have hother : ending ≠ .cancelled := by
          rintro rfl
          exact endAt?_ne_cancelled node hend
        have hprefix : visited.reverse <+: (node.height :: visited).reverse := by simp
        refine .inl ⟨⟨(node.height :: visited).reverse, ending⟩, hother, hprefix, ?_⟩
        intro stop now ends s t hfetch
        exact run_walkOn_ended hfetch hnode hend
      | ok previous =>
        refine .inr ⟨node.height, previous, ?_⟩
        intro stop now ends s t hfetch
        exact run_walkOn_followed hfetch hnode hend

theorem visited_initial_walkOn (fetch : String → Activity σ Fetched)
    (stop : Option Instant) (depth left : Nat) (verified : Option Height) (cid : String)
    (visited : List Height) (now : Instant) (s : σ) :
    visited.reverse <+:
      ((walkOn fetch stop depth verified left cid visited).run now s).1.heights := by
  induction left generalizing cid visited now s with
  | zero => exact List.prefix_rfl
  | succ left ih =>
    rcases hfetch : ((fetch cid).breakOff stop).run now s with ⟨_ | r, ends, t⟩
    · simp only [run_walkOn_cancelled hfetch, List.prefix_rfl]
    · rcases run_walkOn_fetched fetch depth left verified cid visited r with
        ⟨w, _, hprefix, hends⟩ | ⟨height, previous, hon⟩
      · rw [hends stop now ends s t hfetch]
        exact hprefix
      · rw [hon stop now ends s t hfetch]
        refine List.IsPrefix.trans ?_ (ih previous (height :: visited) ends t)
        simp

end ChainAudit

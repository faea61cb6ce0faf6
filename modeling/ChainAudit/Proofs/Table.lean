import ChainAudit.Table
import Mathlib.Data.List.Nodup

/-!
# Tables and names

A table gives back what was stored last under a name, and it has no other entries. Names that are
kept once each are different.
-/

namespace ChainAudit

theorem Table.get?_put (name other : String) (a : α) (t : Table α) :
    (t.put name a).get? other = if other = name then some a else t.get? other := by
  induction t with
  | nil =>
    by_cases h : other = name
    · simp [Table.put, Table.get?, h]
    · simp [Table.put, Table.get?, h, Ne.symm h]
  | cons entry rest ih =>
    obtain ⟨k, b⟩ := entry
    unfold Table.get? at ih ⊢
    rw [Table.put]
    split
    · rename_i hk
      have hk : k = name := by simpa using hk
      subst hk
      by_cases h : other = k
      · simp [h]
      · simp [h, Ne.symm h]
    · rename_i hk
      have hk : k ≠ name := by simpa using hk
      by_cases hother : k = other
      · subst hother
        simp [hk]
      · simpa [List.find?_cons, hother] using ih

theorem Table.names_put (name : String) (a : α) (t : Table α) :
    (t.put name a).names = if name ∈ t.names then t.names else t.names ++ [name] := by
  induction t with
  | nil => rfl
  | cons entry rest ih =>
    obtain ⟨k, b⟩ := entry
    rw [Table.put]
    by_cases hk : k = name
    · simp [Table.names, hk]
    · unfold Table.names at ih ⊢
      by_cases hmem : name ∈ rest.map (·.1)
      · simp [hk, hmem, ih]
      · simp [hk, hmem, ih, Ne.symm hk]

theorem Table.names_put_nodup {t : Table α} (h : t.names.Nodup) (name : String) (a : α) :
    (t.put name a).names.Nodup := by
  rw [Table.names_put]
  split
  · exact h
  · rename_i hnew
    refine List.nodup_append.mpr ⟨h, by simp, ?_⟩
    rintro k hk _ hname rfl
    exact hnew (List.mem_singleton.mp hname ▸ hk)

theorem Table.mem_iff_get? {t : Table α} (h : t.names.Nodup) (name : String) (a : α) :
    (name, a) ∈ t ↔ t.get? name = some a := by
  induction t with
  | nil => simp [Table.get?]
  | cons entry rest ih =>
    obtain ⟨k, b⟩ := entry
    obtain ⟨hnew, hrest⟩ := List.nodup_cons.mp h
    unfold Table.get? at ih ⊢
    by_cases hk : k = name
    · subst hk
      have hother : (k, a) ∉ rest := fun hmem => hnew (List.mem_map.mpr ⟨_, hmem, rfl⟩)
      simp [hother, eq_comm]
    · simpa [hk, Ne.symm hk] using ih hrest

theorem Table.perm_of_get? {t t' : Table α} (h : t.names.Nodup) (h' : t'.names.Nodup)
    (hsame : ∀ name, t.get? name = t'.get? name) : t.Perm t' := by
  refine (List.perm_ext_iff_of_nodup (List.Nodup.of_map _ h) (List.Nodup.of_map _ h')).mpr ?_
  rintro ⟨name, a⟩
  rw [Table.mem_iff_get? h, Table.mem_iff_get? h', hsame]

theorem eraseDups_nodup (names : List String) : names.eraseDups.Nodup := by
  cases names with
  | nil => exact .nil
  | cons name rest =>
    rw [List.eraseDups_cons, List.nodup_cons]
    constructor
    · simp [List.mem_eraseDups]
    · exact eraseDups_nodup _
termination_by names.length
decreasing_by
  rw [List.length_cons]
  exact Nat.lt_succ_of_le (List.length_filter_le _ _)

theorem filter_name {l : List α} {name : α → String} {a : α} (hnodup : (l.map name).Nodup)
    (ha : a ∈ l) : l.filter (fun b => name b == name a) = [a] := by
  induction l with
  | nil => cases ha
  | cons b rest ih =>
    obtain ⟨hnew, hrest⟩ := List.nodup_cons.mp hnodup
    rcases List.mem_cons.mp ha with rfl | ha
    · rw [List.filter_cons_of_pos (by simp), List.filter_eq_nil_iff.mpr]
      intro c hc hname
      exact hnew (List.mem_map.mpr ⟨c, hc, by simpa using hname⟩)
    · have hother : name b ≠ name a := fun h => hnew (h ▸ List.mem_map_of_mem ha)
      rw [List.filter_cons_of_neg (by simpa using hother), ih hrest ha]

end ChainAudit

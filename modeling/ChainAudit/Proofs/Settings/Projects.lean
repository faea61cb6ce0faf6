import ChainAudit.Proofs.Text
import ChainAudit.Settings.Project

/-!
# Lists of projects

What is read from a list are projects that can be written, and a list of projects that can be
written is read back. So a list has one form that reading and writing do not change.
-/

namespace ChainAudit.Project

open ChainAudit.Text

/-- A text that can stand in a list by itself. -/
structure Standing (s : String) : Prop where
  nonempty : s ≠ ""
  trimmed : Trimmed s.toList
  single : ',' ∉ s.toList

/-- A project that can be written into a list: its name cuts no head off, and its head, if it has
one, may hold any character but a comma. -/
structure Canonical (p : Project) : Prop where
  name : Standing p.id
  uncut : '=' ∉ p.id.toList
  head : ∀ cid, p.head = some cid → Standing cid

section Entries

variable {p : Project} {entry cs : List Char} {s : String}

theorem nonEmpty?_eq_some_iff : nonEmpty? cs = some s ↔ cs ≠ [] ∧ String.ofList cs = s := by
  simp [nonEmpty?]

private theorem nonEmpty?_toList (hs : s ≠ "") : nonEmpty? s.toList = some s :=
  nonEmpty?_eq_some_iff.mpr ⟨by simpa using hs, String.ofList_toList⟩

private theorem standing_of_trimChars (hcs : ',' ∉ cs) (hs : nonEmpty? (trimChars cs) = some s) :
    Standing s := by
  obtain ⟨hne, rfl⟩ := nonEmpty?_eq_some_iff.mp hs
  refine ⟨by simpa using hne, ?_, ?_⟩
  · rw [String.toList_ofList]
    exact (trimsTo_trimChars cs).trimmed
  · rw [String.toList_ofList]
    exact fun h => hcs (mem_of_mem_trimChars h)

theorem canonical_of_ofEntry? (hentry : ',' ∉ entry) (h : ofEntry? entry = some p) :
    p.Canonical := by
  change ofTrimmed? (trimChars entry) = some p at h
  rw [ofTrimmed?] at h
  split at h
  · rename_i hcut
    obtain ⟨id, hid, rfl⟩ := Option.map_eq_some_iff.mp h
    refine ⟨standing_of_trimChars hentry hid, ?_, nofun⟩
    obtain ⟨-, rfl⟩ := nonEmpty?_eq_some_iff.mp hid
    simpa using cutAt?_eq_none_iff.mp hcut
  · rename_i before after hcut
    obtain ⟨hparts, hbefore⟩ := cutAt?_eq_some_iff.mp hcut
    have hcomma : ',' ∉ before ++ '=' :: after :=
      hparts ▸ fun hmem => hentry (mem_of_mem_trimChars hmem)
    obtain ⟨id, hid, rfl⟩ := Option.map_eq_some_iff.mp h
    refine ⟨standing_of_trimChars (fun hmem => hcomma (by simp [hmem])) hid, ?_, ?_⟩
    · obtain ⟨-, rfl⟩ := nonEmpty?_eq_some_iff.mp hid
      simpa using fun hmem => hbefore (mem_of_mem_trimChars hmem)
    · intro cid hcid
      exact standing_of_trimChars (fun hmem => hcomma (by simp [hmem])) hcid

private theorem Canonical.trimmed_entry (hp : p.Canonical) : Trimmed p.entry := by
  have hid : p.id.toList ≠ [] := by simpa using hp.name.nonempty
  cases hhead : p.head with
  | none => simpa [entry, hhead] using hp.name.trimmed
  | some cid =>
    obtain ⟨hne, ⟨-, hlast⟩, -⟩ := hp.head cid hhead
    have hcid : cid.toList ≠ [] := by simpa using hne
    obtain ⟨hfirst, -⟩ := hp.name.trimmed
    simp only [entry, hhead]
    constructor
    · intro c hc
      rw [List.head?_append_of_ne_nil _ hid] at hc
      exact hfirst c hc
    · intro c hc
      rw [List.getLast?_append_of_ne_nil _ (by simp), List.getLast?_cons_of_ne_nil hcid] at hc
      exact hlast c hc

theorem ofEntry?_entry (hp : p.Canonical) : ofEntry? p.entry = some p := by
  have hname : nonEmpty? p.id.toList = some p.id := nonEmpty?_toList hp.name.nonempty
  change ofTrimmed? (trimChars p.entry) = some p
  rw [trimChars_of_trimmed hp.trimmed_entry, ofTrimmed?]
  obtain ⟨id, head⟩ := p
  cases head with
  | none =>
    have hcut : cutAt? ['='] (entry ⟨id, none⟩) = none := cutAt?_eq_none_iff.mpr hp.uncut
    rw [hcut]
    exact congrArg (Option.map _) hname
  | some cid =>
    have hcut : cutAt? ['='] (entry ⟨id, some cid⟩) = some (id.toList, cid.toList) :=
      cutAt?_append hp.uncut cid.toList
    obtain ⟨hne, htrimmed, -⟩ := hp.head cid rfl
    rw [hcut]
    simp only [trimChars_of_trimmed hp.name.trimmed, trimChars_of_trimmed htrimmed, hname,
      nonEmpty?_toList hne, Option.map_some]

private theorem Canonical.comma_not_mem_entry (hp : p.Canonical) : ',' ∉ p.entry := by
  cases hhead : p.head with
  | none => simpa [entry, hhead] using hp.name.single
  | some cid => simpa [entry, hhead] using ⟨hp.name.single, (hp.head cid hhead).single⟩

end Entries

section Lists

variable {ps : List Project}

theorem canonical_of_mem_ofList {list : List Char} {p : Project} (hp : p ∈ ofList list) :
    p.Canonical := by
  obtain ⟨entry, hentry, hread⟩ := List.mem_filterMap.mp hp
  obtain ⟨-, hsingle, -⟩ := segments_eq_iff.mp (rfl : segments ',' list = segments ',' list)
  exact canonical_of_ofEntry? (hsingle entry hentry) hread

theorem ofList_toList (hps : ∀ p ∈ ps, p.Canonical) : ofList (toList ps) = ps := by
  cases ps with
  | nil => rfl
  | cons p rest =>
    have hsegments : segments ',' (toList (p :: rest)) = (p :: rest).map entry := by
      refine segments_eq_iff.mpr ⟨by simp, ?_, (joinWith_eq_intercalate _ _).symm⟩
      intro s hs
      obtain ⟨q, hq, rfl⟩ := List.mem_map.mp hs
      exact (hps q hq).comma_not_mem_entry
    rw [ofList, hsegments, List.filterMap_map]
    exact (List.filterMap_congr fun q hq => ofEntry?_entry (hps q hq)).trans List.filterMap_some

end Lists

/-- Whatever is read from a list can be written; what can be written is read back as it was; and so
reading, writing and reading again comes to reading once. -/
theorem lists_round_trip :
    (∀ list, ∀ p ∈ ofList list, p.Canonical) ∧
      (∀ ps : List Project, (∀ p ∈ ps, p.Canonical) → ofList (toList ps) = ps) ∧
      ∀ list, ofList (toList (ofList list)) = ofList list := by
  refine ⟨fun _ _ => canonical_of_mem_ofList, fun _ => ofList_toList, fun list => ?_⟩
  exact ofList_toList fun _ => canonical_of_mem_ofList

/-- Projects of which one has an equals sign in its head and one a blank in its name. -/
def twoProjects : List Project := [⟨"pairA", some "b=c=="⟩, ⟨"pair\u3000B", none⟩]

theorem lists_round_trip_twoProjects :
    (∀ p ∈ twoProjects, p.Canonical) ∧
      toList twoProjects = "pairA=b=c==,pair\u3000B".toList ∧
      ofList (toList twoProjects) = twoProjects ∧
      ofList " pairA = b=c== ,,=d, pair\u3000B =\n".toList = twoProjects := by
  have hread : ofList " pairA = b=c== ,,=d, pair\u3000B =\n".toList = twoProjects := by
    decide +kernel
  have hcanonical : ∀ p ∈ twoProjects, p.Canonical := hread ▸ lists_round_trip.1 _
  exact ⟨hcanonical, by decide +kernel, lists_round_trip.2.1 twoProjects hcanonical, hread⟩

end ChainAudit.Project

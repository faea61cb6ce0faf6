import ChainAudit.Proofs.Pass.Run
import ChainAudit.Proofs.Schedule.Notes
import ChainAudit.Proofs.Store.Listing

/-!
# What a pass reads for each project

The projects of a pass share the store, so what is read there does not tell for which of them. An
auditor can keep a list of all that is read beside the state of its sources, and the work on a
project can note what it adds to the list. This changes nothing of what the pass comes to, and it
shows that a complete walk reads each of its nodes once and nothing else.
-/

namespace ChainAudit

open ChainAudit.Chain ChainAudit.Clock ChainAudit.Limiter ChainAudit.Schedule
open ChainAudit.Schedule.Activity ChainAudit.Store ChainAudit.Text

/-- The auditor that lists what is read from its store. -/
def Auditor.listing (a : Auditor ω) : Auditor (ω × List String) :=
  { a with
    store := BlockStore.listing a.store
    heads := { lookup := fun project s =>
      ((a.heads.lookup project s.1).1, (a.heads.lookup project s.1).2, s.2) } }

section Listing

variable [Quantity α]

theorem walkOn_mirrors {part : σ → τ} {fetch : String → Activity σ Fetched}
    {fetch' : String → Activity τ Fetched}
    (hfetch : ∀ cid, (fetch cid).Mirrors part id (fetch' cid)) (stop : Option Instant) (depth : Nat)
    (verified : Option Height) (left : Nat) (cid : String) (visited : List Height) :
    (walkOn fetch stop depth verified left cid visited).Mirrors part id
      (walkOn fetch' stop depth verified left cid visited) := by
  induction left generalizing cid visited with
  | zero => exact mirrors_pure _
  | succ left ih =>
    refine mirrors_bind (mirrors_breakOff (hfetch cid) stop) fun r => ?_
    match r with
    | none => exact mirrors_pure _
    | some .lost => exact mirrors_pure _
    | some (.answered (.error e)) => exact mirrors_pure _
    | some (.answered (.ok bytes)) =>
      dsimp only
      split
      · exact mirrors_pure _
      · split
        · exact mirrors_pure _
        · exact ih _ _

theorem Auditor.verify_listing (a : Auditor ω) (stop : Option Instant) (now : Moment)
    (known : Option Tracked) (project : String) :
    (a.listing.verify stop now known project : Activity (Limited α _) _).Mirrors forget id
      (a.verify stop now known project) := by
  have hlookup : (Limited.onBehind (.await fun _ => a.listing.heads.lookup project) :
      Activity (Limited α _) _).Mirrors forget id
        (Limited.onBehind (.await fun _ => a.heads.lookup project)) :=
    onBehind_listing (mirrors_await (fun _ _ => rfl) fun _ _ => rfl)
  refine mirrors_bind (mirrors_breakOff hlookup stop) fun r => ?_
  match r with
  | none => exact mirrors_pure _
  | some (.error e) => exact mirrors_pure _
  | some (.ok none) => exact mirrors_pure _
  | some (.ok (some head)) =>
    have hfetch : ∀ cid, (fetch a.listing.store a.listing.fetchTimeout cid :
        Activity (Limited α _) _).Mirrors forget id (fetch a.store a.fetchTimeout cid) :=
      fun cid => fetch_listing a.store a.fetchTimeout cid
    exact mirrors_bind (walkOn_mirrors hfetch stop _ _ _ head []) fun w => mirrors_pure _

end Listing

section Noting

theorem onLimiter_notes (a : Activity (Limiter α) β) (notes : List String) :
    (Limited.onLimiter a : Activity (Limited α (ω × List String)) β).Notes newReads
      (fun _ n => n = notes) notes := by
  refine notes_within ?_ (notes_silent a)
  intro s _
  exact newReads_idle s

variable [Quantity α]

theorem fetch_notes (store : BlockStore ω) (timeout : Span) (cid : String) (notes : List String) :
    (fetch (BlockStore.listing store) timeout cid : Activity (Limited α _) _).Notes newReads
      (fun r n => ∀ bytes, r = .answered (.ok bytes) → n = notes ++ [cid]) notes := by
  refine notes_bind (notes_clock newReads_idle fun now => ?_)
  refine notes_bind (notes_mono (onLimiter_notes _ notes) ?_)
  rintro result n rfl
  cases result with
  | tooLate => exact notes_pure fun bytes h => by cases h
  | lost => exact notes_pure fun bytes h => by cases h
  | granted =>
    have hread : (Limited.onBehind ((BlockStore.listing store).get cid) :
        Activity (Limited α (ω × List String)) _).Notes newReads (fun _ m => m = n ++ [cid]) n := by
      intro now s later found
      change n ++ (s.behind.2 ++ [cid]).drop s.behind.2.length ++
        found.behind.2.drop found.behind.2.length = n ++ [cid]
      rw [List.drop_left, List.drop_length, List.append_nil]
    refine notes_bind (notes_mono (notes_limit newReads_idle hread _) ?_)
    intro r m hr
    cases r with
    | none => exact notes_pure fun bytes h => by cases h
    | some r => exact notes_pure fun bytes _ => hr r rfl

/-- What was read for a walk that went on from a node: as many nodes as were visited from there on,
that node first. -/
def ReadsVisited (cid : String) (visited : List Height) (notes : List String) (w : Walk)
    (n : List String) : Prop :=
  w.ending.isComplete = true →
    ∃ rest, n = notes ++ cid :: rest ∧ w.heights.length = visited.length + rest.length + 1

theorem walkOn_notes {note : σ → σ → List String}
    {fetch : String → Activity σ Fetched} (hidle : ∀ s, note s s = [])
    (hfetch : ∀ cid notes,
      (fetch cid).Notes note
        (fun r n => ∀ bytes, r = .answered (.ok bytes) → n = notes ++ [cid]) notes)
    (stop : Option Instant) (depth : Nat) (verified : Option Height) (left : Nat) (cid : String)
    (visited : List Height) (notes : List String) :
    (walkOn fetch stop depth verified left cid visited).Notes note
      (ReadsVisited cid visited notes) notes := by
  induction left generalizing cid visited notes with
  | zero => exact notes_pure fun h => by cases h
  | succ left ih =>
    refine notes_bind (notes_mono (notes_breakOff hidle (hfetch cid notes) stop) ?_)
    intro r n hr
    match r with
    | none => exact notes_pure fun h => by cases h
    | some .lost => exact notes_pure fun h => by cases h
    | some (.answered (.error e)) => exact notes_pure fun h => by cases h
    | some (.answered (.ok bytes)) =>
      obtain rfl := hr _ rfl bytes rfl
      dsimp only
      split
      · exact notes_pure fun h => by cases h
      · split
        · refine notes_pure fun _ => ⟨[], rfl, ?_⟩
          rw [List.length_reverse, List.length_cons, List.length_nil]
        · rename_i previous _
          refine notes_mono (ih previous _ _) fun w n hw hcomplete => ?_
          obtain ⟨rest, rfl, hlength⟩ := hw hcomplete
          refine ⟨previous :: rest, ?_, ?_⟩
          · rw [List.append_assoc, List.singleton_append]
          · rw [hlength, List.length_cons, List.length_cons]
            omega

/-- What was read for a project that is reported as complete: as many nodes as were walked, the
head first. -/
def ReadsWalked (e : ProjectEnd) (reads : List String) : Prop :=
  ∀ r head, e = .finished r → r.complete = true → r.head = some head →
    ∃ rest, reads = head :: rest ∧ r.nodesWalked = rest.length + 1

theorem Auditor.verify_notes (a : Auditor ω) (stop : Option Instant) (now : Moment)
    (known : Option Tracked) (project : String) :
    (a.listing.verify stop now known project : Activity (Limited α _) _).Notes newReads
      ReadsWalked [] := by
  have hlookup : (Limited.onBehind (.await fun _ => a.listing.heads.lookup project) :
      Activity (Limited α (ω × List String)) _).Notes newReads (fun _ n => n = []) [] :=
    fun now s => List.drop_length
  refine notes_bind (notes_mono (notes_breakOff newReads_idle hlookup stop) ?_)
  intro r n hr
  match r with
  | none => exact notes_pure fun r head h => by cases h
  | some (.error e) =>
    refine notes_pure fun r head h _ hhead => ?_
    obtain rfl := ProjectEnd.finished.inj h
    cases hhead
  | some (.ok none) =>
    refine notes_pure fun r head h _ hhead => ?_
    obtain rfl := ProjectEnd.finished.inj h
    cases hhead
  | some (.ok (some head)) =>
    obtain rfl := hr _ rfl
    have hfetch : ∀ cid notes, (fetch a.listing.store a.listing.fetchTimeout cid :
        Activity (Limited α _) _).Notes newReads
          (fun r n => ∀ bytes, r = .answered (.ok bytes) → n = notes ++ [cid]) notes :=
      fun cid notes => fetch_notes a.store a.fetchTimeout cid notes
    refine notes_bind (notes_mono (walkOn_notes newReads_idle hfetch stop _ _ _ head [] []) ?_)
    intro w n hw
    refine notes_pure fun r head' h hcomplete hhead => ?_
    rcases outcomeOf_cases w a.stuckThreshold (known.map (·.head)) now project head with
      ⟨_, he⟩ | ⟨_, he⟩ | ⟨_, label, _, he⟩
    · cases he.symm.trans h
    · cases he.symm.trans h
    · obtain rfl := ProjectEnd.finished.inj (he.symm.trans h)
      obtain rfl := Option.some.inj hhead
      obtain ⟨rest, hn, hlength⟩ := hw hcomplete
      refine ⟨rest, hn, ?_⟩
      rw [List.length_nil, Nat.zero_add] at hlength
      exact hlength

end Noting

namespace Auditor

variable [Quantity α]
variable (a : Auditor ω) (projects : List String) (signal : Signal) (now : Moment)
variable (tracker : Tracker) (start : Instant) (s : Limited α ω)

/-- The work of a pass on a project, with notes on what it reads. -/
def notedWork (p : String) :
    Activity (Limited α (ω × List String)) (ProjectEnd × List String) :=
  (a.listing.verify (a.stop signal start) now (tracker.get? p) p).noting newReads []

/-- What the work of a pass on its projects came to, each with what was read for it. -/
def notedEnds : List (ProjectEnd × List String) :=
  (runPool (fun e : ProjectEnd × List String => e.1.isLost) a.workers
    (start + a.runTimeout.nanos) start
    ((eachOnce projects).map (a.notedWork signal now tracker start))
    ⟨s.limiter, s.behind, []⟩).results

/-- What a pass reads for a project, in this order. -/
def readsFor (p : String) : List String :=
  ((a.notedEnds projects signal now tracker start s).filter (·.1.project == p)).flatMap (·.2)

theorem notedEnds_ends :
    (a.notedEnds projects signal now tracker start s).map Prod.fst =
      a.ends projects signal now tracker start s := by
  have hworks : List.Forall₂ (Activity.Mirrors forget Prod.fst)
      ((eachOnce projects).map (a.notedWork (α := α) signal now tracker start))
      ((eachOnce projects).map fun p =>
        a.verify (a.stop signal start) now (tracker.get? p) p) := by
    rw [List.forall₂_map_left_iff, List.forall₂_map_right_iff, List.forall₂_same]
    intro p _
    have hverify := a.verify_listing (α := α) (a.stop signal start) now (tracker.get? p) p
    exact mirrors_noting hverify newReads []
  have hlost : ∀ e : ProjectEnd × List String, e.1.isLost = ProjectEnd.isLost (Prod.fst e) :=
    fun _ => rfl
  exact (runPool_mirrors hlost a.workers (start + a.runTimeout.nanos) start hworks
    ⟨s.limiter, s.behind, []⟩).results

theorem notedEnds_readsWalked {e : ProjectEnd × List String}
    (he : e ∈ a.notedEnds projects signal now tracker start s) : ReadsWalked e.1 e.2 := by
  obtain ⟨fires, hfires, hle⟩ := signal.fires?_endingBy (start + a.runTimeout.nanos)
  let listed : Limited α (ω × List String) := ⟨s.limiter, s.behind, []⟩
  have hworks : ∀ p ∈ eachOnce projects,
      WillDoJob start fires (Known s.limiter (a.listing.Reaches listed.behind))
        (fun _ (e : ProjectEnd × List String) => ReadsWalked e.1 e.2) p
        (a.notedWork (α := α) signal now tracker start p) := by
    intro p _ t ht
    have hwork := a.listing.work_ensures signal now tracker start listed hfires p ht
    have hnotes := a.verify_notes (α := α) (a.stop signal start) now (tracker.get? p) p
    exact ensures_mono (ensures_noting hwork hnotes) fun r _ hr => hr.2
  have hknown : Known s.limiter (a.listing.Reaches listed.behind) listed := ⟨.start, .start⟩
  obtain ⟨_, _, hreads⟩ := (runPool_results hle hknown hworks).1.exists_key he
  exact hreads

variable {a projects signal now tracker start s}
variable {p head : String} {r : ProjectReport}

theorem readsFor_report
    (h : (a.run projects signal now tracker start s).project? p = some r) :
    (ProjectEnd.finished r, a.readsFor projects signal now tracker start s p) ∈
      a.notedEnds projects signal now tracker start s := by
  have hmem := mem_ends_of_project? h
  obtain ⟨report, hreport, _, hname⟩ := exists_mem_report h
  rw [← notedEnds_ends, List.mem_map] at hmem
  obtain ⟨⟨e, reads⟩, he, rfl⟩ := hmem
  have hnodup : ((a.notedEnds projects signal now tracker start s).map (·.1.project)).Nodup := by
    rw [show (fun e : ProjectEnd × List String => e.1.project) = ProjectEnd.project ∘ Prod.fst
      from rfl, ← List.map_map, notedEnds_ends, (ends_names hreport).nodup_iff]
    exact eachOnce_nodup projects
  have honly : (a.notedEnds projects signal now tracker start s).filter (·.1.project == p) =
      [(.finished r, reads)] := hname ▸ filter_name hnodup he
  rw [readsFor, honly, List.flatMap_singleton]
  exact he

/-- A pass that reports a project as complete has read as many nodes for it as it walked, the head
first. -/
theorem readsFor_complete
    (h : (a.run projects signal now tracker start s).project? p = some r)
    (hcomplete : r.complete = true) (hhead : r.head = some head) :
    ∃ rest, a.readsFor projects signal now tracker start s p = head :: rest ∧
      r.nodesWalked = rest.length + 1 :=
  a.notedEnds_readsWalked projects signal now tracker start s (readsFor_report h) r head rfl
    hcomplete hhead

end Auditor

end ChainAudit

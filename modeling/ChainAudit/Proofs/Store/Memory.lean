import ChainAudit.Proofs.Pass.Verify
import ChainAudit.Store.Memory

/-!
# Auditors on stores in memory

Reads of a store in memory are counted but change nothing of its content, and fixed heads have no
state at all. What an auditor is answered is therefore what the store held at the start.
-/

namespace ChainAudit

open ChainAudit.Chain ChainAudit.Clock ChainAudit.Schedule ChainAudit.Store

namespace Store.Memory

/-- The node that is stored under an identifier, if one can be read there. -/
def node? (cid : String) (m : Memory) : Option Node :=
  (m.content cid).toOption.bind fun bytes => (Node.ofBytes bytes).toOption

def block (m : Memory) (cid : String) : Block := ⟨cid, (m.node? cid).getD default⟩

theorem content_block {m : Memory} {cid : String} (h : (m.node? cid).isSome) :
    ∃ bytes, m.content cid = .ok bytes ∧ Node.ofBytes bytes = .ok (m.block cid).node := by
  unfold block
  unfold node? at h ⊢
  cases hcontent : m.content cid with
  | error e => simp [hcontent, Except.toOption] at h
  | ok bytes =>
    cases hnode : Node.ofBytes bytes with
    | error fault => simp [hcontent, hnode, Except.toOption] at h
    | ok node => exact ⟨bytes, rfl, by simp [hnode, Except.toOption]⟩

/-- A store with nodes of which the identifier, the height and the link are given. -/
def ofNodes (nodes : List (String × Int × String)) : Memory :=
  nodes.foldl (fun m (cid, height, link) =>
    m.putDocument cid (.object [("height", .int height), ("prevCid", .string link)])) .empty

/-- A store with a chain of nodes, each of which links to the one before it. -/
def ofChain (nodes : List (String × Int)) : Memory :=
  .ofNodes ((nodes.zip ("" :: nodes.map (·.1))).map fun ((cid, height), link) => (cid, height, link))

end Store.Memory

/-- An auditor that reads a store in memory and knows fixed heads. -/
structure Auditor.InMemory (a : Auditor Memory) (heads : Table String) : Prop where
  store : a.store = Memory.store
  heads : a.heads = .fixed heads

/-- An auditor of a store in memory with settings in common use. -/
def Auditor.ofMemory (heads : Table String) : Auditor Memory where
  store := Memory.store
  heads := .fixed heads
  fetchTimeout := .ofSeconds 30
  stuckThreshold := defaultStuckThreshold
  workers := 4
  maxDepth := 100
  runTimeout := .ofSeconds 300

theorem Auditor.ofMemory_inMemory (heads : Table String) : (ofMemory heads).InMemory heads :=
  ⟨rfl, rfl⟩

variable {a : Auditor Memory} {heads : Table String} {m t : Memory}

/-- Only read counts change as long as lookups leave the store alone. -/
theorem Auditor.reaches_of_memory (hstore : a.store = Memory.store)
    (hkeep : ∀ project m, (a.heads.lookup project m).2 = m) (ht : a.Reaches m t) :
    ∃ reads, t = { m with reads := reads } := by
  induction ht with
  | start => exact ⟨m.reads, rfl⟩
  | @read t cid _ ih =>
    obtain ⟨reads, rfl⟩ := ih
    rw [hstore]
    exact ⟨_, rfl⟩
  | @lookup t project _ ih =>
    rw [hkeep]
    exact ih

theorem Auditor.InMemory.reaches (ha : a.InMemory heads) (ht : a.Reaches m t) :
    ∃ reads, t = { m with reads := reads } := by
  refine reaches_of_memory ha.store ?_ ht
  intro project m
  rw [ha.heads]
  rfl

theorem Auditor.InMemory.lookup (ha : a.InMemory heads) (project : String) (t : Memory) :
    (a.heads.lookup project t).1.value = .ok (heads.get? project) := by
  rw [ha.heads]
  rfl

theorem Auditor.InMemory.read (ha : a.InMemory heads) {t' : Memory} (ht : a.Reaches m t)
    (ht' : a.Reaches m t') (cid : String) :
    a.store.answer cid t t' = ⟨m.content cid, m.delays.get? cid⟩ := by
  obtain ⟨reads, rfl⟩ := ha.reaches ht
  obtain ⟨reads', rfl⟩ := ha.reaches ht'
  rw [ha.store]
  rfl

theorem Auditor.InMemory.holds (ha : a.InMemory heads) {cid : String}
    (hnode : (m.node? cid).isSome) (hdelay : m.delays.get? cid = none) :
    a.Holds m (m.block cid) := by
  intro t t' ht ht'
  obtain ⟨bytes, hcontent, hdecoded⟩ := Memory.content_block hnode
  have hread := ha.read ht ht' cid
  constructor
  · intro span hspan
    have hnone := (congrArg Delayed.delay hread).symm.trans hspan
    rw [hdelay] at hnone
    cases hnone
  · exact ⟨bytes, (congrArg Delayed.value hread).trans hcontent, hdecoded⟩

end ChainAudit

import ChainAudit.Json.Canonical
import ChainAudit.Store.Basic
import ChainAudit.Table

/-!
# Stores in memory

A store whose content is at hand. Reads of chosen identifiers can be made to fail or to take a
while, and every read is counted.
-/

namespace ChainAudit.Store
open ChainAudit.Clock ChainAudit.Json ChainAudit.Schedule ChainAudit.Text

/-- Contents, delays and read counts by identifier, and the identifiers whose reads fail. -/
structure Memory where
  blocks : Table Bytes
  failing : List String
  delays : Table Span
  reads : Table Nat
  deriving Inhabited

namespace Memory

def empty : Memory := ⟨[], [], [], []⟩

def put (cid : String) (content : Bytes) (m : Memory) : Memory :=
  { m with blocks := m.blocks.put cid content }

def putDocument (cid : String) (v : Value) (m : Memory) : Memory :=
  m.put cid (toBytes v.canonical.toText)

def fail (cid : String) (m : Memory) : Memory :=
  { m with failing := cid :: m.failing }

def delay (cid : String) (span : Span) (m : Memory) : Memory :=
  { m with delays := m.delays.put cid span }

def readCount (cid : String) (m : Memory) : Nat :=
  (m.reads.get? cid).getD 0

def content (cid : String) (m : Memory) : Except FetchError Bytes :=
  if m.failing.contains cid then .error (.transport ("injected failure for " ++ cid))
  else
    match m.blocks.get? cid with
    | some bytes => .ok bytes
    | none => .error (.notFound cid)

/-- Counts a read of an identifier and tells how long it takes. -/
def read (cid : String) (m : Memory) : Delayed (Memory → Except FetchError Bytes) × Memory :=
  (⟨content cid, m.delays.get? cid⟩, { m with reads := m.reads.put cid (m.readCount cid + 1) })

def store : BlockStore Memory := ⟨read⟩

end Memory

end ChainAudit.Store

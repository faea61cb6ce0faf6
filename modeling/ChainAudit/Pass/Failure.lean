import ChainAudit.Address
import ChainAudit.Notice.Delivery

/-!
# Failures

What can keep the auditor from its work: its settings, the address of its store, the lookup of a
head, the network, a document, a delivery, or a file.
-/

namespace ChainAudit
open ChainAudit.Address ChainAudit.Notice

inductive Failure where
  | settings (reason : String)
  | address (e : AddressError)
  | headLookup (project reason : String)
  | network (reason : String)
  | document (reason : String)
  | notice (e : DeliveryError)
  | file (reason : String)
  deriving DecidableEq, Repr, Inhabited

def Failure.message : Failure → String
  | .settings reason => "Configuration error: " ++ reason
  | .address e => "Invalid store address: " ++ e.message
  | .headLookup project reason => "Head lookup failed for " ++ project ++ ": " ++ reason
  | .network reason => "Network error: " ++ reason
  | .document reason => "Serialization error: " ++ reason
  | .notice e => e.message
  | .file reason => "IO error: " ++ reason

end ChainAudit

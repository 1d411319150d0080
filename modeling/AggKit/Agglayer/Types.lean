import Mathlib.Data.Nat.Notation
import AggKit.Common

/-!
# Certificates, as in `agglayer/types/types.go`

What the agglayer knows of a certificate. The header is what it returns for one that was sent.
-/

namespace AggKit.Agglayer

/-- `CertificateStatus`. -/
inductive CertificateStatus where
  | pending
  | proven
  | candidate
  | inError
  | settled
deriving DecidableEq

/-- `NonSettledStatuses`. -/
def NonSettledStatuses : List CertificateStatus := [.pending, .candidate, .proven]

/-- `ClosedStatuses`. -/
def ClosedStatuses : List CertificateStatus := [.settled, .inError]

/-- `IsClosed`. -/
def CertificateStatus.isClosed (c : CertificateStatus) : Bool := ClosedStatuses.contains c

/-- `IsInError`. -/
def CertificateStatus.isInError (c : CertificateStatus) : Bool := c = .inError

/-- `IsOpen`. -/
def CertificateStatus.isOpen (c : CertificateStatus) : Bool := NonSettledStatuses.contains c

/-- A status is open, in error or settled. -/
theorem CertificateStatus.eq_settled_of_not {c : CertificateStatus} (herror : c.isInError = false)
    (hopen : c.isOpen = false) : c = .settled := by
  cases c with
  | settled => rfl
  | inError => exact absurd herror (by decide)
  | pending | proven | candidate => exact absurd hopen (by decide)

/-- `CertificateHeader`. -/
structure CertificateHeader (H : Type) where
  networkID : UInt32
  height : ℕ
  certificateID : H
  previousLocalExitRoot : Option H
  newLocalExitRoot : H
  status : CertificateStatus
deriving DecidableEq

end AggKit.Agglayer

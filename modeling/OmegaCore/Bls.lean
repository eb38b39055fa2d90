import OmegaCore.Primitives

/-!
BLS public keys as the masternode list sees them.  A `CBLSLazyPublicKey` holds a
key together with the scheme it is encoded in, legacy or basic.  Its `operator==`
compares decoded keys, while its serialisation, and therefore its hash, follows
the scheme.  A key that is null or does not decode compares and serialises the
same way under either scheme, so it carries no scheme here.
-/

namespace OmegaCore

/-- A decoded, valid public key, named by a number that leaves room for one more bit in 48 bytes. -/
structure G1Element where
  id : BitVec 383
  deriving DecidableEq, Repr

/-- A decoded, valid signature. -/
structure G2Element where
  id : ℕ
  deriving DecidableEq, Repr

/-- A public key or a signature that failed to decode is invalid. -/
abbrev CBLSPublicKey := Option G1Element

abbrev CBLSSignature := Option G2Element

inductive CBLSLazyPublicKey where
  | null
  | valid (legacy : Bool) (key : G1Element)
  deriving DecidableEq, Repr, Inhabited

namespace CBLSLazyPublicKey

/-- `Get()`: the decoded key, if there is a valid one. -/
def get : CBLSLazyPublicKey → CBLSPublicKey
  | null => none
  | valid _ k => some k

def isValid (v : CBLSLazyPublicKey) : Bool :=
  v.get.isSome

/-- `operator==` compares the decoded keys. -/
def eq (a b : CBLSLazyPublicKey) : Bool :=
  decide (a.get = b.get)

def isLegacy : CBLSLazyPublicKey → Bool
  | null => true
  | valid legacy _ => legacy

/-- The two values hold the same valid key under different schemes. -/
def Reencodes (a b : CBLSLazyPublicKey) : Prop :=
  a.get = b.get ∧ a ≠ b

instance (a b : CBLSLazyPublicKey) : Decidable (Reencodes a b) :=
  inferInstanceAs (Decidable (_ ∧ _))

@[simp]
theorem get_null : null.get = none := rfl

@[simp]
theorem get_valid (s : Bool) (k : G1Element) : (valid s k).get = some k := rfl

@[simp]
theorem isValid_null : null.isValid = false := rfl

@[simp]
theorem isValid_valid (s : Bool) (k : G1Element) : (valid s k).isValid = true := rfl

theorem eq_iff {a b : CBLSLazyPublicKey} : a.eq b = true ↔ a.get = b.get := by
  simp [eq]

/-- Comparing with the default value is the same as testing for a missing key. -/
theorem eq_null_iff {a : CBLSLazyPublicKey} : a.eq null = true ↔ a = null := by
  cases a <;> simp [eq]

theorem not_reencodes_self (a : CBLSLazyPublicKey) : ¬ Reencodes a a :=
  fun h => h.2 rfl

theorem eq_of_not_reencodes {a b : CBLSLazyPublicKey} (hkey : a.get = b.get) (hno : ¬ Reencodes a b) : a = b := by
  by_contra hne
  exact hno ⟨hkey, hne⟩

end CBLSLazyPublicKey

end OmegaCore

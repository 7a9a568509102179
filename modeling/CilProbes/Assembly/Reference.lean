import CilProbes.Digest.Sha1
import CilProbes.Text.Hex

/-! # Assembly references

An assembly is known by name, version and public key token. References are ordered by these
three, in this order.

* `publicKeyToken`: eight bytes that stand for a public key.
* `AssemblyReference.compare`: the order of references, in which only equal ones are equal.
* `AssemblyRecord.reference`: the reference to an assembly as metadata records it.
-/

namespace CilProbes

/-- The four numbers of a version. -/
structure AssemblyVersion where
  major : UInt16
  minor : UInt16
  build : UInt16
  revision : UInt16
deriving DecidableEq, Repr

/-- A resolved assembly. -/
structure AssemblyReference where
  name : String
  version : AssemblyVersion
  /-- The eight bytes of the public key token; zeros for none. -/
  token : Bytes
deriving DecidableEq, Repr

/-- An assembly as metadata records it. -/
structure AssemblyRecord where
  name : String
  version : AssemblyVersion
  /-- The public key, or its token, or nothing. -/
  publicKey : Bytes
deriving DecidableEq, Repr

/-- The assembly of a module and those it refers to. -/
structure ModuleAssemblies where
  own : AssemblyRecord
  references : List AssemblyRecord
deriving DecidableEq, Repr

def publicKeyTokenSize : Nat := 8

/-- **The public key token.** Eight bytes are a token already; any other key stands for the last
eight bytes of its digest, last byte first; no key is eight zeros. -/
def publicKeyToken (key : Bytes) : Bytes :=
  if key.isEmpty then List.replicate publicKeyTokenSize 0
  else if key.length = publicKeyTokenSize then key
  else (Sha1.digest key).reverse.take publicKeyTokenSize

namespace AssemblyVersion

def numbers (v : AssemblyVersion) : List UInt16 := [v.major, v.minor, v.build, v.revision]

/-- Versions are ordered number by number. -/
def compare (v w : AssemblyVersion) : Ordering := Ord.compare v.numbers w.numbers

/-- The numbers with points between them. -/
def text (v : AssemblyVersion) : String :=
  ".".intercalate (v.numbers.map fun n => toString n.toNat)

end AssemblyVersion

/-- **References are ordered by name, then version, then token.** Names and tokens are ordered as
lists of characters and bytes. -/
def AssemblyReference.compare (a b : AssemblyReference) : Ordering :=
  ((Ord.compare a.name b.name).then (a.version.compare b.version)).then
    (Ord.compare a.token b.token)

/-- Versions that compare as equal are equal. -/
theorem AssemblyVersion.eq_of_compare {v w : AssemblyVersion} (h : v.compare w = .eq) : v = w := by
  have hn : v.numbers = w.numbers := Std.LawfulEqOrd.eq_of_compare h
  cases v
  cases w
  simpa [numbers] using hn

/-- **References that compare as equal are equal.** -/
theorem AssemblyReference.eq_of_compare {a b : AssemblyReference} (h : a.compare b = .eq) :
    a = b := by
  simp only [compare, Ordering.then_eq_eq] at h
  obtain ⟨⟨name, version⟩, token⟩ := h
  cases a
  cases b
  simp only [mk.injEq]
  exact ⟨Std.LawfulEqOrd.eq_of_compare name, AssemblyVersion.eq_of_compare version,
    Std.LawfulEqOrd.eq_of_compare token⟩

/-- The reference to a recorded assembly. -/
def AssemblyRecord.reference (r : AssemblyRecord) : AssemblyReference :=
  ⟨r.name, r.version, publicKeyToken r.publicKey⟩

end CilProbes

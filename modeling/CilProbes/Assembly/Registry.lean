import CilProbes.Assembly.Reference

/-! # The assembly registry

The registry holds every assembly met so far, each once and in order, and finds the newest one of
a name.

* `Registry.record`: enters an assembly and tells whether it is new.
* `Registry.byName`: the assemblies of a name, oldest version first.
* `Registry.newest?`, `Registry.newestVersion?`: the one of highest version, and that version.
* `Registry.mem_record`: what a record adds.
-/

namespace CilProbes

namespace AssemblyReference

/-- The least reference of a name. -/
def lowest (name : String) : AssemblyReference :=
  ⟨name, ⟨0, 0, 0, 0⟩, List.replicate publicKeyTokenSize 0⟩

/-- The greatest reference of a name. -/
def highest (name : String) : AssemblyReference :=
  ⟨name, ⟨0xFFFF, 0xFFFF, 0xFFFF, 0xFFFF⟩, List.replicate publicKeyTokenSize 0xFF⟩

end AssemblyReference

/-- The assemblies met so far. -/
structure Registry where
  /-- The references, in ascending order and each once. -/
  entries : List AssemblyReference
deriving DecidableEq, Repr

namespace Registry

def empty : Registry := ⟨[]⟩

instance : Inhabited Registry := ⟨empty⟩

/-- Enters a reference into an ascending list, unless it is there. -/
def enter (a : AssemblyReference) : List AssemblyReference → List AssemblyReference
  | [] => [a]
  | b :: bs =>
    match a.compare b with
    | .lt => a :: b :: bs
    | .eq => b :: bs
    | .gt => b :: enter a bs

/-- **Entering adds the reference** and nothing else. -/
theorem mem_enter {a c : AssemblyReference} {bs : List AssemblyReference} :
    c ∈ enter a bs ↔ c = a ∨ c ∈ bs := by
  induction bs with
  | nil => simp [enter]
  | cons b bs ih =>
    cases h : a.compare b with
    | lt => simp [enter, h]
    | eq =>
      obtain rfl := AssemblyReference.eq_of_compare h
      simp [enter, h]
    | gt =>
      simp only [enter, h, List.mem_cons, ih]
      exact or_left_comm

variable (r : Registry)

def size : Nat := r.entries.length

/-- Whether there is none. -/
def isEmpty : Bool := r.entries.isEmpty

/-- **Enters an assembly** and tells whether it is new. -/
def record (a : AssemblyRecord) : Bool × Registry :=
  if a.reference ∈ r.entries then (false, r) else (true, ⟨enter a.reference r.entries⟩)

/-- **After its record an assembly is known**, and so is all that was known before. -/
theorem mem_record (a : AssemblyRecord) (c : AssemblyReference) :
    c ∈ (r.record a).2.entries ↔ c = a.reference ∨ c ∈ r.entries := by
  unfold record
  split
  · next h =>
    refine ⟨Or.inr, fun hc => ?_⟩
    obtain rfl | hc := hc
    · exact h
    · exact hc
  · exact mem_enter

/-- Enters the assembly of a module and those it refers to. -/
def recordAll (a : ModuleAssemblies) : Registry :=
  (a.own :: a.references).foldl (fun r a => (r.record a).2) r

/-- The references from one to another, with both of these. -/
def between (lower upper : AssemblyReference) : List AssemblyReference :=
  r.entries.filter fun c => (lower.compare c).isLE && (c.compare upper).isLE

/-- **The assemblies of a name**, oldest version first: those from its least to its greatest
reference. -/
def byName (name : String) : List AssemblyReference := r.between (.lowest name) (.highest name)

/-- **The assembly of highest version**; of several, the first in order. -/
def newest? (name : String) : Option AssemblyReference :=
  (r.byName name).foldl
    (fun best a =>
      match best with
      | none => some a
      | some b => if a.version.compare b.version = .gt then some a else some b)
    none

/-- The highest version of a name. -/
def newestVersion? (name : String) : Option AssemblyVersion :=
  (r.newest? name).map (·.version)

end Registry

end CilProbes

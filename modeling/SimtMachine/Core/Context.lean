import SimtMachine.Core.Stage

/-!
# Execution contexts

A core executes its block in two contexts, `a` and `b`, each with a program counter and a pipeline
stage of its own.
-/

namespace SimtMachine

/-- The two contexts of a core. -/
inductive ContextTag
  | a | b
deriving DecidableEq

namespace ContextTag

instance : Inhabited ContextTag := ⟨a⟩

def other : ContextTag → ContextTag
  | a => b
  | b => a

def index : ContextTag → Nat
  | a => 0
  | b => 1

def letter : ContextTag → String
  | a => "A"
  | b => "B"

theorem other_ne (t : ContextTag) : t.other ≠ t := by
  cases t <;> decide

theorem eq_other_of_ne {t u : ContextTag} (h : t ≠ u) : t = u.other := by
  cases t <;> cases u <;> simp_all [other]

end ContextTag

/-- One value for each context. -/
structure PerContext (α : Type) where
  a : α
  b : α
deriving DecidableEq

namespace PerContext

variable {α β : Type}

def get (p : PerContext α) : ContextTag → α
  | .a => p.a
  | .b => p.b

/-- The pair of values that `f` gives for the two contexts. -/
def ofFn (f : ContextTag → α) : PerContext α := ⟨f .a, f .b⟩

/-- The same value for both contexts. -/
def both (x : α) : PerContext α := ⟨x, x⟩

def set (p : PerContext α) : ContextTag → α → PerContext α
  | .a, x => { p with a := x }
  | .b, x => { p with b := x }

/-- Applies `f`, which may look at the tag, to both values. -/
def map (p : PerContext α) (f : ContextTag → α → β) : PerContext β :=
  ofFn fun t ↦ f t (p.get t)

/-- The two values, context `a` first. -/
def toList (p : PerContext α) : List α := [p.a, p.b]

theorem ext_get {p q : PerContext α} (h : ∀ t, p.get t = q.get t) : p = q := by
  have ha := h .a
  have hb := h .b
  cases p
  cases q
  simp only [get] at ha hb
  rw [ha, hb]

@[simp] theorem get_ofFn (f : ContextTag → α) (t : ContextTag) : (ofFn f).get t = f t := by
  cases t <;> rfl

@[simp] theorem get_set_self (p : PerContext α) (t : ContextTag) (x : α) :
    (p.set t x).get t = x := by
  cases t <;> rfl

@[simp] theorem get_set_other (p : PerContext α) (t : ContextTag) (x : α) :
    (p.set t x).get t.other = p.get t.other := by
  cases t <;> rfl

@[simp] theorem get_set_other_self (p : PerContext α) (t : ContextTag) (x : α) :
    (p.set t.other x).get t = p.get t := by
  cases t <;> rfl

@[simp] theorem get_map (p : PerContext α) (f : ContextTag → α → β) (t : ContextTag) :
    (p.map f).get t = f t (p.get t) := by
  simp [map]

end PerContext

/-- The progress of one context through the program. -/
structure Context where
  pc : UInt8
  stage : Stage
  finished : Bool
deriving DecidableEq

namespace Context

/-- A context before its first instruction. -/
def initial : Context := ⟨0, .idle, false⟩

instance : Inhabited Context := ⟨initial⟩

end Context

end SimtMachine

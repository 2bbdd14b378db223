import Monomorph.Code.Lowering

/-! # Lowering with every state noted

Lowering changes its state by operations: it appends an instruction, takes a new slot or the next version of one, lets
a name stand for a version, and enters and leaves blocks and bodies. Here it runs on a state that notes where every
operation leads to. Nothing else changes the state, so the list of what was noted (`Tracing.seen`) has every point of
lowering. -/

namespace Monomorph

/-- A state of lowering, and the states that were noted on the way to it, the latest first. -/
structure Tracing where
  now : Lowering
  seen : List Lowering

abbrev TraceM := LowerOn Tracing

/-- Do an operation, and note the state that it leads to. -/
def TraceM.noting {α : Type} (x : LowerM α) : TraceM α := fun t =>
  match x t.now with
  | .ok a s => .ok a ⟨s, s :: t.seen⟩
  | .error e s => .error e ⟨s, t.seen⟩

instance : LowerState Tracing where
  lift := TraceM.noting
  find name := TraceM.noting (LowerState.find name)
  declare name v := TraceM.noting (LowerState.declare name v)
  inArm x := x
  inClosure _ x := x

/-- Lower every variant that has a body; also all states that were noted, the latest first. -/
def traceLower (context : LowerContext) : Except LowerError Module × List Lowering :=
  match LowerM.procedures context 0 context.symbols.symbols.toList (⟨⟨.empty, [], #[], #[], .empty⟩, []⟩ : Tracing) with
  | .ok procedures t => (.ok ⟨procedures, t.now.constants⟩, t.seen)
  | .error e t => (.error e, t.seen)

end Monomorph

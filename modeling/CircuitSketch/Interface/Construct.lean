import CircuitSketch.Interface.Program
import CircuitSketch.Interface.Request
import CircuitSketch.Platform.Basic

/-!
# Meeting a request

A platform meets a request by placing primitives of its own between the given ports and named
outputs. The holes that program them are new, or those of a program that is handed in.

Defects are looked for in a fixed order: a request that cannot be met, wrong port names, a port of
the wrong width, and a program that does not fit. A number of the platform that was written with a
point is told last, when it is counted up to.
-/
namespace CircuitSketch

/-- What was handed in as the program of an earlier request: a program, or something else known by
its kind. -/
inductive GivenProgram
  | program (p : Program)
  | other (kind : String)

/-- The kind that a given program is known by: for a primitive's program the kind of request it
belongs to. -/
def GivenProgram.kind : GivenProgram → String
  | program (.lut _) => "LUT"
  | program (.mux _) => "MUX"
  | program (.carry _) => "carry"
  | program p => p.kind
  | other k => k

namespace Platform

/-- Whether a kind of request can be met at all. -/
def supports (p : Platform) (kind : String) : Bool :=
  match kind with
  | "LUT" => true
  | "MUX" => p.mux.isSome
  | "carry" => p.carry.isSome
  | _ => false

end Platform

namespace Request

/-- A parameter that has to be a whole number above zero. The first one of the name counts. -/
def positive (r : Request) (name : String) : Except Refusal Nat :=
  match r.parameters.lookup name with
  | none => .error (.unsupported (.missingParameter r name))
  | some d =>
    match d.positive? with
    | some n => .ok n
    | none => .error (.unsupported (.badParameter r name))

/-- The words wired to expected ports, in the order expected. No other port may be wired, and every
word has to have the width expected. -/
def wire (r : Request) (ports : List (String × Operand)) (expected : List (String × Nat)) :
    Except Refusal (List Expr) :=
  let given := ports.map (·.1)
  let names := expected.map (·.1)
  let missing := Text.sortedNames (names.filter fun n => !given.contains n)
  let unexpected := Text.sortedNames (given.filter fun n => !names.contains n)
  if missing.isEmpty && unexpected.isEmpty then
    expected.mapM fun (name, width) =>
      match ports.lookup name with
      | some (.expr e) =>
        if e.shape = .word width then .ok e
        else .error (.portWidth r name width e.shape.width?)
      | _ => .error (.portWidth r name width none)
  else .error (.ports r missing unexpected)

end Request

/-- Things can be counted up to a number that was written without a point. -/
def Count.checkPlain (c : Count) : Except Refusal Unit :=
  if c.pointed then .error (.option .pointed) else .ok ()

/-- The ports `I0`, `I1`, … of one bit each. -/
def inputPorts (count : Nat) : List (String × Nat) :=
  (List.range count).map fun i => (s!"I{i}", 1)

/-- The number of bits that select one of `count` inputs. -/
def selectWidth (count : Nat) : Nat := if count ≤ 1 then 0 else Nat.log2 (count - 1) + 1

namespace Platform

/-- The size of the smallest lookup table with enough inputs. -/
def fittingLut? (p : Platform) (inputs : Nat) : Option Nat :=
  (p.sizes.filter fun size => inputs ≤ size).min?

/-- The size of the smallest lookup table with enough inputs, or the refusal of the request. -/
def fittingLut (p : Platform) (r : Request) (inputs : Nat) : Except Refusal Nat :=
  match p.fittingLut? inputs with
  | some size => .ok size
  | none => .error (.unsupported (.lutTooWide p.name inputs p.largest r))

/-- Places a lookup table. Inputs that are left over are tied to zero, and so are the entries of the
table that they would select. -/
def placeLut (size : Nat) (inputs : List Expr) (table : List Hole) : Build Refusal Expr := do
  let zero ← Build.const 1 0
  let wired := inputs ++ List.replicate (size - inputs.length) zero
  let entries := table.map Expr.hole
  let init ← Build.concatBits (entries ++ List.replicate (twoPow size - entries.length) zero)
  let ports := (wired.zipIdx.map fun w => (s!"I{w.2}", w.1)) ++ [("INIT", init)]
  let placed ← Build.primitive s!"LUT{size}" ports [("O", 1)]
  Build.output placed "O" 1

/-- A new table for a lookup table. -/
def newLutProgram (inputs : Nat) : Build Refusal LutProgram := do
  let table ← Build.newBits (twoPow inputs)
  pure ⟨inputs, table⟩

/-- Meets a request for a lookup table. -/
def buildLut (p : Platform) (r : Request) (ports : List (String × Operand))
    (given : Option LutProgram) : Build Refusal (Expr × LutProgram) := do
  let count ← r.positive "num_inputs"
  let size ← p.fittingLut r count
  let inputs ← r.wire ports (inputPorts count)
  let program ← match given with
    | none => newLutProgram count
    | some l =>
      if l.inputs = count then pure l else Build.fail (.mismatch (.lutInputs r l.inputs))
  (p.written size).checkPlain
  let out ← placeLut size inputs program.table
  pure (out, program)

/-- Words named `I0`, `I1`, … -/
def numberedPorts (words : List Expr) : List (String × Operand) :=
  words.zipIdx.map fun w => (s!"I{w.2}", .expr w.1)

/-- Meets a request for a multiplexer in a given style. -/
def buildMux (p : Platform) (style : MuxStyle) (r : Request) (ports : List (String × Operand))
    (given : Option MuxProgram) : Build Refusal (Expr × MuxProgram) := do
  let count ← r.positive "num_inputs"
  if count < 2 then Build.fail (.unsupported (.narrowMux r))
  else
    let wired ← r.wire ports (inputPorts count ++ [("S", selectWidth count)])
    let inputs := wired.take count
    let select := wired.getLastD default
    match given with
    | some m =>
      if m.inputs ≠ count then Build.fail (.mismatch (.muxInputs r m.inputs)) else pure ()
    | none => pure ()
    match style with
    | .native =>
      let items ← Build.list inputs
      let out ← Build.lookup items select
      pure (out, given.getD ⟨count, none⟩)
    | .lut =>
      let selectBits ← Build.bits select
      let words := inputs ++ selectBits
      let request := Request.lut words.length
      match given with
      | none =>
        let (out, l) ← p.buildLut request (numberedPorts words) none
        pure (out, ⟨count, some l⟩)
      | some m =>
        match m.lut with
        | none => Build.fail (.mismatch (.hardMux r))
        | some l =>
          let (out, _) ← p.buildLut request (numberedPorts words) (some l)
          pure (out, m)

/-- The blocks of a carry chain from a position on: the sum bits of each, and the carry out. -/
def carryBlocks (unit : CarryUnit) (di s : Expr) (width lo : Nat) (carryIn : Expr) :
    Build Refusal (List Expr × Expr) := do
  if _h : lo < width then
    let hi := min (lo + unit.chunk.value) width - 1
    let d ← Build.slice di lo hi
    let e ← Build.slice s lo hi
    let placed ← Build.primitive unit.style.module [("CI", carryIn), ("DI", d), ("S", e)]
      [("O", hi + 1 - lo), ("CO", 1)]
    let sum ← Build.output placed "O" (hi + 1 - lo)
    let carryOut ← Build.output placed "CO" 1
    let (sums, last) ← carryBlocks unit di s width (lo + unit.chunk.value) carryOut
    pure (sum :: sums, last)
  else pure ([], carryIn)
termination_by width - lo
decreasing_by
  have := unit.chunk_pos
  omega

/-- Meets a request for a carry chain: the sum, the carry out and the program. -/
def buildCarry (unit : CarryUnit) (r : Request) (ports : List (String × Operand))
    (given : Option CarryProgram) : Build Refusal (Expr × Expr × CarryProgram) := do
  let width ← r.positive "width"
  let wired ← r.wire ports [("CI", 1), ("DI", width), ("S", width)]
  let program ← match given with
    | none => pure ⟨width⟩
    | some c =>
      if c.width = width then pure c else Build.fail (.mismatch (.carryWidth r c.width))
  unit.chunk.checkPlain
  match wired with
  | [carryIn, di, s] =>
    let (sums, carryOut) ← carryBlocks unit di s width 0 carryIn
    let sum ← Build.concatBits sums
    pure (sum, carryOut, program)
  | _ => Build.fail (.ports r [] [])

/-- Meets a request: the named outputs and the program. A given program of another kind is turned
down before anything else about the request is looked at. -/
def construct (p : Platform) (r : Request) (ports : List (String × Operand))
    (given : Option GivenProgram) : Build Refusal (List (String × Expr) × Program) := do
  match r.kind, p.mux, p.carry with
  | "LUT", _, _ =>
    let (out, l) ← match given with
      | none => p.buildLut r ports none
      | some (.program (.lut l)) => p.buildLut r ports (some l)
      | some g => Build.fail (.mismatch (.kind r g.kind))
    pure ([("O", out)], .lut l)
  | "MUX", some style, _ =>
    let (out, m) ← match given with
      | none => p.buildMux style r ports none
      | some (.program (.mux m)) => p.buildMux style r ports (some m)
      | some g => Build.fail (.mismatch (.kind r g.kind))
    pure ([("O", out)], .mux m)
  | "carry", _, some unit =>
    let (sum, carryOut, c) ← match given with
      | none => buildCarry unit r ports none
      | some (.program (.carry c)) => buildCarry unit r ports (some c)
      | some g => Build.fail (.mismatch (.kind r g.kind))
    pure ([("O", sum), ("CO", carryOut)], .carry c)
  | _, _, _ => Build.fail (.unsupported (.notProvided p.name r))

/-- Places a lookup table between words, programmed anew or as before. -/
def lut (p : Platform) (inputs : List Expr) (given : Option LutProgram) :
    Build Refusal (Expr × LutProgram) :=
  p.buildLut (.lut inputs.length) (numberedPorts inputs) given

/-- Places a multiplexer of two inputs, programmed anew or as before. -/
def mux2 (p : Platform) (ifZero ifOne select : Expr) (given : Option MuxProgram) :
    Build Refusal (Expr × MuxProgram) :=
  match p.mux with
  | some style =>
    p.buildMux style (.mux 2) [("I0", .expr ifZero), ("I1", .expr ifOne), ("S", .expr select)]
      given
  | none => Build.fail (.unsupported (.notProvided p.name (.mux 2)))

/-- Places a carry chain: the sum, the carry out and the program. -/
def carryChain (p : Platform) (carryIn di s : Expr) (width : Datum)
    (given : Option CarryProgram) : Build Refusal (Expr × Expr × CarryProgram) :=
  match p.carry with
  | some unit =>
    buildCarry unit (.carry width) [("CI", .expr carryIn), ("DI", .expr di), ("S", .expr s)] given
  | none => Build.fail (.unsupported (.notProvided p.name (.carry width)))

end Platform
end CircuitSketch

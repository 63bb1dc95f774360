import CircuitSketch.Reduction.Tree
import CircuitSketch.Template.Inputs

/-!
# Shifts

A shift is made in stages. Stage `i` moves every bit by `twoPow i` positions, to the left or to the
right as holes decide, where bit `i` of the amount is set. What moves in from beyond the edge is a
zero or the sign of the first input, as a hole decides or as asked for. The last stage is selected
by any of the remaining bits of the amount, so that an amount past the width moves every bit out.
-/
namespace CircuitSketch.Template

/-- The number of stages: one for each bit, or the least number whose last distance reaches the
width. -/
def stageCount (width : Int) (logarithmic : Bool) : Int :=
  if logarithmic then
    let n := (width - 1).natAbs
    (if n = 0 then 0 else Nat.log2 n + 1) + 1
  else width

/-- The number of stages as it is stated: without a logarithm the width in the form it was given. -/
def statedStages (width : Datum) (logarithmic : Bool) : Datum :=
  match logarithmic, width.number? with
  | true, some n => .int (stageCount n true)
  | _, _ => width

/-- What moves in from beyond the edge. -/
inductive Fill
  | either
  | zero
  | sign
deriving DecidableEq, Repr

/-- The fill that an option asks for. -/
def Fill.ofDatum : Datum → Except Refusal Fill
  | .null => .ok either
  | .text "zero" => .ok zero
  | .text "sign" => .ok sign
  | d => .error (.option (.fill d))

/-- A bit that moves in from beyond the edge. -/
def fillBit (fill : Fill) (zero sign : Expr) : Build Refusal Expr :=
  match fill with
  | .either => Build.choose zero sign
  | .zero => pure zero
  | .sign => pure sign

/-- The bit that moves to a position: from either side at a distance, or the fill. -/
def shiftedBit (fill : Fill) (zero sign : Expr) (current : List Expr) (distance position : Nat) :
    Build Refusal Expr := do
  let fromLeft := if distance ≤ position then current[position - distance]? else none
  let fromRight := current[position + distance]?
  match fromLeft, fromRight with
  | some l, some r => if l = r then pure l else Build.choose l r
  | some l, none => do
    let f ← fillBit fill zero sign
    if l = f then pure l else Build.choose l f
  | none, some r => do
    let f ← fillBit fill zero sign
    if f = r then pure r else Build.choose f r
  | none, none => fillBit fill zero sign

/-- One multiplexer for every position between the bit there and the bit that moves there. -/
def muxBits (p : Platform) (select : Expr) :
    List (Expr × Expr) → Option MuxProgram → Build Refusal (List Expr × Option MuxProgram)
  | [], given => pure ([], given)
  | (here, moved) :: rest, given => do
    let (out, program) ← p.mux2 here moved select given
    let (outs, last) ← muxBits p select rest (some program)
    pure (out :: outs, last)

/-- What selects a stage: a bit of the amount, or for the last stage any of the remaining ones. -/
def stageSelect (p : Platform) (amount : Expr) (width stage : Nat) (last : Bool)
    (given : Option ReductionProgram) : Build Refusal (Expr × Option ReductionProgram) := do
  if last then
    let remaining ← (List.range' stage (width - stage)).mapM (Build.bit amount)
    match remaining with
    | [bit] => pure (bit, given)
    | bits =>
      let (bit, program) ← Reduction.reduce p [bits.map .expr] given true
      pure (bit, some program)
  else
    let bit ← Build.bit amount stage
    pure (bit, given)

/-- The stages from one on, `stages` of them. -/
def shiftStages (p : Platform) (fill : Fill) (zero sign amount : Expr) (width : Nat) :
    (stages stage : Nat) → List Expr → Option MuxProgram → Option ReductionProgram →
      Build Refusal (List Expr × Option MuxProgram × Option ReductionProgram)
  | 0, _, current, mux, saturate => pure (current, mux, saturate)
  | stages + 1, stage, current, mux, saturate => do
    let (select, saturate) ← stageSelect p amount width stage (stages == 0) saturate
    let shifted ← (List.range width).mapM (shiftedBit fill zero sign current (twoPow stage))
    let (next, mux) ← muxBits p select (current.zip shifted) mux
    shiftStages p fill zero sign amount width stages (stage + 1) next mux saturate

/-- The sketch of a shift of checked inputs. -/
def shiftOf (p : Platform) (a amount : Expr) (width : Nat) (given : Option ShiftProgram)
    (logarithmic : Bool) (fill : Fill) : Build Refusal (Expr × ShiftProgram) := do
  let stages := stageCount width logarithmic
  let sign ← Build.bit a (width - 1)
  let zero ← Build.const 1 0
  let current ← Build.bits a
  let (bits, mux, saturate) ←
    shiftStages p fill zero sign amount width stages.toNat 0 current
      (given.map ShiftProgram.mux) (given.bind ShiftProgram.saturate)
  let out ← Build.concatBits bits
  pure (out, ⟨mux.getD ⟨2, none⟩, saturate, .int stages⟩)

/-- A shift of the first input by the second. -/
def shift (p : Platform) (inputs : List Operand) (count width : Datum)
    (given : Option GivenProgram) (logarithmic : Bool) (fill : Datum) :
    Build Refusal (Expr × ShiftProgram) := do
  let (es, w) ← checkInputs ⟨"shift", some 2, true⟩ inputs count width
  let program ← expect "shift" "ShiftState"
    (fun
      | .shift s => some s
      | _ => none) given
  let fill ← Fill.ofDatum fill
  match es with
  | [a, amount] =>
    let (out, program) ← shiftOf p a amount w program logarithmic fill
    pure (out, { program with stages := statedStages width logarithmic })
  | _ => Build.fail (.arity (.noInputs "shift"))

end CircuitSketch.Template

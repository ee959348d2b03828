import ScriptMachine.Store

/-! Listings: code blocks as text, an instruction a line. -/

namespace ScriptMachine

namespace Store

/-- What the operand of an instruction stands for. -/
def operandMeaning (s : Store) (b : CodeBlock) (i : Instruction) : Except Fault String :=
  match i.opcode with
  | .loadConst => (b.constant i.arg).map s.inspect
  | .loadFast | .storeFast | .storeConst | .define | .deleteFast => b.localAt i.arg
  | .loadGlobal | .storeGlobal | .deleteGlobal | .loadAttribute | .storeAttribute =>
    b.nameAt i.arg
  | .compare => .ok (((CompareOp.ofNumber? i.arg).map (·.symbol)).getD "?")
  | .jumpForward => .ok ("to " ++ toString (i.next + i.arg))
  | .jumpAbsolute | .popJumpIf _ | .jumpIfOrPop _ | .startTry => .ok ("to " ++ toString i.arg)
  | .call => .ok (toString i.arg ++ " positional")
  | .makeArray => .ok (toString i.arg ++ " items")
  | .makeMap => .ok (toString i.arg ++ " pairs")
  | _ => .ok ""

/-- Offset, mnemonic, operand and its meaning. -/
def listingLine (s : Store) (b : CodeBlock) (i : Instruction) : Except Fault String :=
  let offset := Text.zeroPadded 4 i.offset ++ " "
  let mnemonic := Text.padRight 22 i.opcode.mnemonic
  match i.operand with
  | .none => .ok (offset ++ i.opcode.mnemonic)
  | .pair iter finish =>
    .ok (offset ++ mnemonic ++ s!"{iter} {finish} (iter {iter}, end {finish})")
  | _ => do
    let meaning ← s.operandMeaning b i
    return offset ++ mnemonic ++ toString i.arg ++ " (" ++ meaning ++ ")"

/-- The heading of a block and a line for each of its instructions. -/
def ownListing (s : Store) (indent : Nat) (b : CodeBlock) : Except Fault String := do
  let pad := Text.blanks indent
  let lines ← b.instructions.mapM fun item => do
    let line ← s.listingLine b (← item)
    return pad ++ line ++ "\n"
  return pad ++ "== " ++ b.name ++ " (" ++ b.filename ++ ") ==\n"
    ++ pad ++ s!"locals: {b.locals.size}  max stack: {b.maxStack}  max blocks: {b.maxBlocks}\n"
    ++ String.join lines

/-- The code blocks among the constants of a block. -/
def nestedBlocks (s : Store) (b : CodeBlock) : List CodeBlock :=
  b.constants.toList.filterMap fun
    | .code id => some (s.block id)
    | _ => none

/-- Lists a block and the blocks among its constants, down to the given depth. -/
def listingTo (s : Store) : Nat → Nat → CodeBlock → Except Fault String
  | 0, indent, b => s.ownListing indent b
  | depth + 1, indent, b => do
    let own ← s.ownListing indent b
    let nested ← (s.nestedBlocks b).mapM fun inner => do
      return "\n" ++ (← s.listingTo depth (indent + 2) inner)
    return own ++ String.join nested

/-- Lists a block and all blocks within it. A block is made after those among its constants, so
no chain of blocks is longer than the number of blocks. -/
def listing (s : Store) (b : CodeBlock) : Except Fault String :=
  s.listingTo s.blocks.size 0 b

end Store

end ScriptMachine

import HavokScript.Number.Decimal
import HavokScript.Text.Quoted
import HavokScript.Tree.Basic

/-!
# Source text

The text of a tree in the script language. Operators are written from left to right without
parentheses. A body is indented by four blanks more than what is around it. Markers are written as
calls of functions whose names start with `asm_`.
-/

namespace HavokScript

/-- The words that are no names. -/
def keywords : List Bytes :=
  ["and", "break", "do", "else", "elseif", "end", "false", "for", "function", "if", "in", "local",
   "nil", "not", "or", "repeat", "return", "then", "true", "until", "while"].map utf8

/-- Whether a byte may start a name. -/
def isNameStart (b : UInt8) : Bool :=
  b = 95 || (97 ≤ b && b ≤ 122) || (65 ≤ b && b ≤ 90)

/-- Whether a byte may go on with a name. -/
def isNamePart (b : UInt8) : Bool := isNameStart b || (48 ≤ b && b ≤ 57)

/-- Whether a string is a name, which may be written behind a dot. -/
def isName : Bytes → Bool
  | [] => false
  | b :: bs => isNameStart b && bs.all isNamePart && !keywords.contains (b :: bs)

/-- The separator of lists. -/
def comma : Bytes := utf8 ", "

/-- The entries of a table: a value with a key shows both. -/
def tableEntries : List (Option Bytes) → List Bytes → List Bytes
  | _, [] => []
  | some k :: ks, v :: vs => (utf8 "[" ++ k ++ utf8 "] = " ++ v) :: tableEntries ks vs
  | none :: ks, v :: vs => v :: tableEntries ks vs
  | [], v :: vs => v :: tableEntries [] vs

/-- The text of an access: a name is written behind a dot, and any other key in brackets. -/
def accessText (key : Expr) (text : Bytes) : Bytes :=
  match key.peel with
  | .identifier _ name => utf8 "." ++ name
  | .string _ s => if isName s then utf8 "." ++ s else utf8 "[" ++ Quoted.quote s ++ utf8 "]"
  | _ => utf8 "[" ++ text ++ utf8 "]"

mutual

/-- The text of an expression. -/
def Expr.source : Expr → Bytes
  | .missing => utf8 "nil"
  | .register r => utf8 "R" ++ Numeral.int r.index
  | .closure _ i => utf8 "C" ++ Numeral.int i
  | .identifier _ name => name
  | .nil _ => utf8 "nil"
  | .bool _ b => if b then utf8 "true" else utf8 "false"
  | .number _ x => Decimal.ofDouble x
  | .string _ s => Quoted.quote s
  | .vararg _ => utf8 "..."
  | .call _ f args => f.source ++ utf8 "(" ++ Bytes.join comma (Expr.sources args) ++ utf8 ")"
  | .binary _ op l r => l.source ++ utf8 " " ++ op ++ utf8 " " ++ r.source
  | .unary _ op e => op ++ e.source
  | .table _ ks vs =>
    utf8 "\x7b" ++ Bytes.join comma (tableEntries (Expr.keySources ks) (Expr.sources vs)) ++
      utf8 "\x7d"
  | .index _ t k => t.source ++ accessText k k.source
  | .shared _ e => e.source

/-- The texts of expressions. -/
def Expr.sources : List Expr → List Bytes
  | [] => []
  | e :: es => e.source :: Expr.sources es

/-- The texts of table keys; a missing key has none. -/
def Expr.keySources : List Expr → List (Option Bytes)
  | [] => []
  | .missing :: es => none :: Expr.keySources es
  | e :: es => some e.source :: Expr.keySources es

end

/-- The text of a list of values. -/
def valueList (es : List Expr) : Bytes := Bytes.join comma (Expr.sources es)

/-- The text of an expression that is assigned to: with `counts`, a register shows how often the
value is read. -/
def targetSource (counts : Bool) : Expr → Bytes
  | .register r =>
    if counts then
      utf8 "R" ++ Numeral.int r.index ++ utf8 "(" ++ Numeral.int r.uses ++ utf8 ")"
    else utf8 "R" ++ Numeral.int r.index
  | e => e.source

/-- The text of a list of targets. -/
def targetList (counts : Bool) (es : List Expr) : Bytes :=
  Bytes.join comma (es.map (targetSource counts))

/-- Whether all targets are registers that are never read. -/
def allUnused (targets : List Expr) : Bool :=
  targets.all fun
    | .register r => r.uses ≤ 0
    | _ => false

/-- The text of an assignment. A call statement, and a call whose result is never read, shows the
call alone. -/
def assignText (counts : Bool) (targets values : List Expr) (kept : Bool) : Bytes :=
  if targets.isEmpty ∨ (kept ∧ allUnused targets) then valueList values
  else targetList counts targets ++ utf8 " = " ++ valueList values

/-- The text of a bound of a numeric loop: an expression, or the value of the assignment that
loads it. -/
def boundText : Node → Bytes
  | .expr e => e.source
  | .assign _ _ (v :: _) _ => v.source
  | _ => []

/-- The text of the last bound of a numeric loop, with the comma in front of it. -/
def stepText : Node → Bytes
  | .missing => []
  | n => comma ++ boundText n

/-- The text of the parameters of a function. -/
def parameterText (params : List Register) (vararg : Bool) : Bytes :=
  let names := params.map fun r => Expr.source (.register r)
  utf8 "(" ++ Bytes.join comma (names ++ if vararg then [utf8 "..."] else []) ++ utf8 ")"

/-- The text of the name of a function; the main function has none. -/
def functionName : Expr → Bytes
  | .missing => []
  | e => e.source

/-- How much deeper a body is indented. -/
def indentWidth : Nat := 4

/-- The blanks in front of a line. -/
def pad (indent : Nat) : Bytes := List.replicate indent 32

/-- Whether a node is there. -/
def Node.isPresent : Node → Bool
  | .missing => false
  | _ => true

mutual

/-- The text of a statement. Lines after the first start with `indent` blanks. -/
def Node.source (counts : Bool) (indent : Nat) : Node → Bytes
  | .missing => utf8 "--[[ <nil> ]]"
  | .expr e => e.source
  | .chunk _ _ => []
  | .arm .. => []
  | .block _ body => utf8 "do" ++ Node.lines counts indent body ++ utf8 "end"
  | .scope _ body => utf8 "do" ++ body.bodySource counts indent ++ utf8 "end"
  | .whileLoop _ c body =>
    utf8 "while " ++ c.source ++ utf8 " do" ++ body.bodySource counts indent ++ utf8 "end"
  | .repeatLoop _ body c =>
    utf8 "repeat" ++ body.bodySource counts indent ++ utf8 "until " ++ c.source
  | .branch _ c body arms other =>
    utf8 "if " ++ c.source ++ utf8 " then" ++ body.bodySource counts indent ++
      Node.armSources counts indent arms ++
      (if other.isPresent then utf8 "else" ++ other.bodySource counts indent else []) ++
      utf8 "end"
  | .numericFor _ v init limit step body =>
    utf8 "for " ++ Expr.source (.register v) ++ utf8 " = " ++ boundText init ++ comma ++
      boundText limit ++ stepText step ++ utf8 " do" ++ body.bodySource counts indent ++
      utf8 "end"
  | .genericFor _ vars es body =>
    utf8 "for " ++ valueList vars ++ utf8 " in " ++ valueList es ++ utf8 " do" ++
      body.bodySource counts indent ++ utf8 "end"
  | .function _ name params vararg body =>
    utf8 "function " ++ functionName name ++ parameterText params vararg ++
      body.bodySource counts indent ++ utf8 "end"
  | .localFunction _ name params vararg body =>
    utf8 "local function " ++ name.source ++ parameterText params vararg ++
      body.bodySource counts indent ++ utf8 "end"
  | .locals _ names vs =>
    utf8 "local " ++ targetList counts names ++
      if vs.isEmpty then [] else utf8 " = " ++ valueList vs
  | .assign _ ts vs kept => assignText counts ts vs kept
  | .returns _ vs => utf8 "return" ++ if vs.isEmpty then [] else utf8 " " ++ valueList vs
  | .jump _ offset => utf8 "asm_jump( " ++ Numeral.int offset ++ utf8 " )"
  | .test _ c => utf8 "asm_test( " ++ c.source ++ utf8 " )"
  | .forPrep _ init limit step v =>
    utf8 "asm_forprep( " ++ valueList [init, limit, step, .register v] ++ utf8 " )"
  | .forLoop _ _ offset => utf8 "asm_forloop( " ++ Numeral.int offset ++ utf8 " )"
  | .tForLoop _ _ => utf8 "asm_tforloop()"

/-- The lines of a body one level deeper, up to the blanks in front of what closes it. -/
def Node.bodySource (counts : Bool) (indent : Nat) : Node → Bytes
  | .block _ body => Node.lines counts indent body
  | _ => utf8 "\n" ++ pad indent

/-- The same for the statements of a body. -/
def Node.lines (counts : Bool) (indent : Nat) : List Node → Bytes
  | [] => utf8 "\n" ++ pad indent
  | n :: ns =>
    utf8 "\n" ++ pad (indent + indentWidth) ++ n.source counts (indent + indentWidth) ++
      Node.lines counts indent ns

/-- The texts of `elseif` arms. -/
def Node.armSources (counts : Bool) (indent : Nat) : List Node → Bytes
  | .arm _ c body :: arms =>
    utf8 "elseif " ++ c.source ++ utf8 " then" ++ body.bodySource counts indent ++
      Node.armSources counts indent arms
  | _ :: arms => Node.armSources counts indent arms
  | [] => []

end

/-- The statements of a file, each on lines of its own. -/
def Node.fileSource (counts : Bool) (body : List Node) : Bytes :=
  body.flatMap fun n => n.source counts 0 ++ utf8 "\n"

/-- The text of a tree. -/
def Node.print (counts : Bool) : Node → Bytes
  | .chunk _ body => Node.fileSource counts body
  | n => n.source counts 0

end HavokScript

/-
  BlockLang.Parser.Program

  Reading the items of a program.

  When an item cannot be read, its error is noted and reading goes on behind the
  line on which the item went wrong, or at an `end` before that.  A program is
  accepted when no error was noted.
-/
import BlockLang.Parser.Expression

namespace BlockLang

/-! ## Passing over what is rejected -/

namespace ParseState

/-- Passes the rest of a block and its `end`, where `depth` blocks inside it are
    open. -/
def skipBlock (depth : Nat) (s : ParseState) : List Token → ParseState
  | [] => { s with rest := [] }
  | t :: ts =>
    if t.kind = .endOfInput then { s with rest := t :: ts }
    else
      let s := { s with lastLine := t.line }
      if t.kind = .kwClass || t.isDo then skipBlock (depth + 1) s ts
      else if t.kind = .kwEnd then
        match depth with
        | 0 => { s with rest := ts }
        | depth + 1 => skipBlock depth s ts
      else skipBlock depth s ts

/-- Passes parentheses up to the one that closes the first, where `depth` of them
    are open. -/
def skipParens (depth : Nat) (s : ParseState) : List Token → ParseState
  | [] => { s with rest := [] }
  | t :: ts =>
    if t.kind = .endOfInput then { s with rest := t :: ts }
    else
      let s := { s with lastLine := t.line }
      if t.kind = .leftParen then skipParens (depth + 1) s ts
      else if t.kind = .rightParen then
        match depth with
        | 0 | 1 => { s with rest := ts }
        | depth + 2 => skipParens (depth + 1) s ts
      else skipParens depth s ts

/-- Passes the parameters and the block of a method body. -/
def skipMethodBody (s : ParseState) : ParseState :=
  let s := s.skipParens 0 s.rest
  let s := if s.current.isDo then s.advance else s
  s.skipBlock 0 s.rest

/-- Passes what is left of the line of the last token, up to an `end`.  At least one
    token behind the state `start` is passed. -/
def synchronize (s start : ParseState) : ParseState :=
  let s := if s.rest.length = start.rest.length then s.advance else s
  { s with rest := s.rest.dropWhile fun t =>
      t.kind != .endOfInput && t.kind != .kwEnd && t.line == s.lastLine }

/-- Whether the parenthesis that closes the first one comes before `do`, where
    `depth` of them are open. -/
def closesBeforeDo (depth : Nat) : List Token → Bool
  | [] => false
  | t :: ts =>
    if t.kind = .endOfInput then false
    else if t.kind = .leftParen then closesBeforeDo (depth + 1) ts
    else if t.kind = .rightParen then
      match depth with
      | 0 | 1 => (ts.head?.map Token.isDo).getD false
      | depth + 2 => closesBeforeDo (depth + 1) ts
    else closesBeforeDo depth ts

/-- Whether the name that stands here starts a method body and not a call. -/
def atMethodBody (s : ParseState) : Bool := closesBeforeDo 0 (s.rest.drop 1)

end ParseState

/-! ## Declarations -/

namespace ParseM

/-- Makes a declaration in the table; `line` is where its name stands. -/
def declare {α : Type} (line : Nat)
    (add : ScopeTable → Cursor → Except ScopeError (α × ScopeTable)) : ParseM α := do
  let s ← get
  match add s.scopes s.cursor with
  | .ok (id, scopes) =>
    set { s with scopes }
    return id
  | .error cause => throw (.scope cause line)

/-- Reads the content of a block and its `end`. -/
def block (construct : Construct) (line : Nat) (content : StateM ParseState (List Item)) :
    ParseM (List Item) := do
  let body ← content
  if ← accept .kwEnd then
    return body
  else
    throw (.unterminatedBlock construct line)

/-- Reads a class.  When its name is taken, its block is passed over. -/
def classDeclaration (content : StateM ParseState (List Item)) : ParseM Item := do
  let keyword ← next
  let name := Ident.ofToken (← expect .className)
  let s ← get
  match s.scopes.declareClass name.name s.cursor with
  | .ok (id, scopes) =>
    set { s with scopes }
    let body ← withCursor (.inClass id) (block .classDecl keyword.line content)
    return .classDecl name body
  | .error cause =>
    set (s.skipBlock 0 s.rest)
    throw (.scope cause name.line)

/-- Reads the declaration of a method. -/
def methodDeclaration (budget : Nat) : ParseM Item := do
  let name := Ident.ofToken (← next)
  let _ ← expect .typeSeparator
  let returnType ← expectType
  let _ ← expect .arrow
  let parameterTypes ← separated expectType budget
  let _ ← declare name.line fun t c => t.declareMethod name.name returnType parameterTypes c
  let _ ← accept .semicolon
  return .methodDecl name returnType parameterTypes

/-- Reads the declaration of a variable. -/
def varDeclaration : ParseM Item := do
  let name := Ident.ofToken (← next)
  let _ ← expect .typeSeparator
  let type ← expectType
  let _ ← declare name.line fun t c => t.declareVariable name.name c
  let _ ← accept .semicolon
  return .varDecl name type

/-! ## Statements -/

/-- Reads a condition and a block behind a keyword. -/
def conditional (budget : Nat) (construct : Construct) (make : Expr → List Item → Nat → Item)
    (content : StateM ParseState (List Item)) : ParseM Item := do
  let keyword ← next
  let condition ← expression budget
  expectDo
  let body ← block construct keyword.line content
  return make condition body keyword.line

/-- Reads a parameter of a body of `method`. -/
def pattern (budget : Nat) (method : MethodId) : ParseM Pattern := do
  let s ← get
  let following := (s.peekAt 1).kind
  if s.check .identifier && (following = .comma || following = .rightParen) then
    let name := Ident.ofToken (← next)
    modify fun s => { s with scopes := (s.scopes.bindParameter method name.name).2 }
    return .binding name
  else
    let value ← unary budget (expression budget) budget
    if value.isConstant then
      return .value value
    else
      throw (.invalidPattern s.current.line)

/-- Reads the parameters and the block of a body of `method`.  The body is numbered
    behind its block, so bodies inside it come first. -/
def methodBodyRest (budget : Nat) (name : Ident) (method : MethodId)
    (content : StateM ParseState (List Item)) : ParseM Item := do
  let _ ← expect .leftParen
  let patterns ←
    if (← get).check .rightParen then pure [] else separated (pattern budget method) budget
  let _ ← expect .rightParen
  expectDo
  let body ← block .methodBody name.line content
  let s ← get
  let (id, scopes) := s.scopes.addImplementation method
  set { s with scopes }
  return .methodBody ⟨id, method, name, patterns⟩ body

/-- Reads a method body.  When its method is unknown, the body is passed over. -/
def methodBody (budget : Nat) (content : StateM ParseState (List Item)) : ParseM Item := do
  let name := Ident.ofToken (← next)
  let s ← get
  match s.scopes.resolveMethod name.name s.cursor with
  | some method =>
    withCursor (s.scopes.bodyCursor method) (methodBodyRest budget name method content)
  | none =>
    set s.skipMethodBody
    throw (.scope (.undeclared .method name.name) name.line)

/-- Reads a call that stands as a statement. -/
def callStatement (budget : Nat) : ParseM Item := do
  let (target, args) ← call budget (expression budget)
  return .call target args

/-- Reads a statement up to the semicolon that may follow it. -/
def bareStatement (budget : Nat) (content : StateM ParseState (List Item)) : ParseM Item := do
  let s ← get
  let following := (s.peekAt 1).kind
  match s.current.kind with
  | .kwWhile => conditional budget .whileLoop .whileLoop content
  | .kwIf => conditional budget .ifThen .ifThen content
  | .identifier =>
    if following = .leftParen then
      if s.atMethodBody then methodBody budget content else callStatement budget
    else if following = .equal then
      let (target, value) ← assignment (expression budget)
      return .assign target value
    else
      return .expr (← expression budget)
  | .kwPrint =>
    if following = .leftParen then
      callStatement budget
    else
      return .expr (← expression budget)
  | _ => return .expr (← expression budget)

/-- Reads a statement. -/
def statement (budget : Nat) (content : StateM ParseState (List Item)) : ParseM Item := do
  let item ← bareStatement budget content
  let _ ← accept .semicolon
  return item

/-- Reads an item, whose blocks are read by `content`. -/
def item (budget : Nat) (content : StateM ParseState (List Item)) : ParseM Item := do
  let s ← get
  if s.check .kwClass then
    classDeclaration content
  else if s.check .identifier && (s.peekAt 3).kind = .arrow then
    methodDeclaration budget
  else if s.check .identifier && (s.peekAt 1).kind = .typeSeparator then
    varDeclaration
  else
    statement budget content

end ParseM

/-! ## Programs -/

/-- Reads items up to the end of the program and, inside a block, up to `end`.

    Every round passes at least one token, and blocks come behind at least one
    token, so a budget of the number of remaining tokens suffices. -/
def parseItems : Nat → Bool → StateM ParseState (List Item)
  | 0, _ => return []
  | budget + 1, inBlock => do
    let start ← get
    if start.atEnd || (inBlock && start.check .kwEnd) then
      return []
    else
      match ← (ParseM.item (budget + 1) (parseItems budget true)).run with
      | .ok item => return item :: (← parseItems budget inBlock)
      | .error e =>
        modify fun s => (s.report e).synchronize start
        parseItems budget inBlock

/-- The program that a list of tokens writes, or everything that is wrong with it. -/
def parseTokens (tokens : List Token) : Except (List ParseError) Parsed :=
  let (items, s) := (parseItems tokens.length false).run (.ofTokens tokens)
  if s.errors.isEmpty then .ok ⟨items, s.scopes⟩ else .error s.errors

/-- The program that a text writes, or everything that is wrong with it.  Lexical
    errors hide all others. -/
def parse (text : String) : Except Diagnostics Parsed :=
  match tokenize text with
  | .error errors => .error ⟨errors.map LexError.diagnostic⟩
  | .ok tokens =>
    match parseTokens tokens with
    | .error errors => .error ⟨errors.map ParseError.diagnostic⟩
    | .ok parsed => .ok parsed

end BlockLang

import FilterQuery.Consumer
import FilterQuery.Token

/-!
# Grammar/Brackets — where a broken condition ends

After an error the reader skips to the next connector, to the closing parenthesis of the enclosing
group or to the end, but not inside brackets that the broken condition has opened itself.
-/

namespace FilterQuery

/-- The brackets that are open, the innermost first, and how many of them are parentheses. -/
structure Brackets where
  stack : List Punct
  parens : Nat
  deriving DecidableEq, Inhabited

namespace Brackets

/-- No open brackets. -/
def empty : Brackets := ⟨[], 0⟩

/-- Opens a bracket. -/
def push (b : Brackets) (p : Punct) : Brackets :=
  ⟨p :: b.stack, if p = .openParen then b.parens + 1 else b.parens⟩

/-- Closes a bracket that is the innermost open one, and no other. -/
def close (b : Brackets) (opener : Punct) : Brackets :=
  if b.stack.head? = some opener then ⟨b.stack.tail, b.parens⟩ else b

/-- Pops the stack down to the innermost parenthesis, which is one less if there is one. -/
def popParen (parens : Nat) : (stack : List Punct) → Brackets
  | [] => ⟨[], parens⟩
  | p :: stack => if p = .openParen then ⟨stack, parens - 1⟩ else popParen parens stack

/-- Closes the innermost open parenthesis and every bracket opened after it. -/
def closeParen (b : Brackets) : Brackets :=
  if b.parens = 0 then b else popParen b.parens b.stack

/-- What is open after a token. -/
def track (b : Brackets) : Token.Kind → Brackets
  | .punct .openParen => b.push .openParen
  | .punct .openBrace => b.push .openBrace
  | .punct .openBracket => b.push .openBracket
  | .punct .closeParen => b.closeParen
  | .punct .closeBrace => b.close .openBrace
  | .punct .closeBracket => b.close .openBracket
  | _ => b

/-- What is open after tokens. -/
def trackAll (b : Brackets) (tokens : List Token) : Brackets :=
  tokens.foldl (fun b t => b.track t.kind) b

/-- Whether a condition with these brackets open ends before a token. -/
def stopsAt (b : Brackets) : Token.Kind → Bool
  | .endOfInput => true
  | .connector _ => b.stack.isEmpty
  | .punct .closeParen => b.parens == 0
  | _ => false

/-- The tokens from the end of the condition on. -/
def skip (b : Brackets) : List Token → List Token
  | [] => []
  | t :: tokens => if b.stopsAt t.kind then t :: tokens else (b.track t.kind).skip tokens

theorem skip_suffix (b : Brackets) (tokens : List Token) : b.skip tokens <:+ tokens := by
  induction tokens generalizing b with
  | nil => exact List.suffix_rfl
  | cons t tokens ih =>
    unfold skip
    split
    · exact List.suffix_rfl
    · exact (ih _).trans (List.suffix_cons t tokens)

end Brackets

/-- Skips to the end of the condition whose tokens were `start` to the end of the list. -/
def synchronize (start : List Token) : Consumer Token Unit :=
  ⟨fun s =>
    let read := start.take (start.length - s.length)
    ((), (Brackets.empty.trackAll read).skip s),
    fun _ => Brackets.skip_suffix _ _⟩

end FilterQuery

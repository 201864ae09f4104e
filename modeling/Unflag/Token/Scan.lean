/-
Cutting a source into tokens.

The scan alternates: a token, the trivia behind it on its line, the trivia in front of
the next token. Each step takes a piece from the front of what is left and adds the line
breaks of that piece to the line number, so the line of a token is one more than the
line breaks in front of it.
-/
import Unflag.Token.Lexeme

set_option autoImplicit false

namespace Unflag

namespace Scan

open Text

/-- The trivia at the start of `s`, which stands on line `line`, and what follows it. With
`sameLine`, trivia ends at the end of the line. -/
def trivia (sameLine : Bool) (line : Nat) : Text → Except Failure (Trivia × Text)
  | [] => .ok ([], [])
  | c :: r =>
    if sameLine && isLineEnd c then .ok ([], c :: r)
    else
      match Lexeme.triviaAt c r with
      | .error cause => .error ⟨cause, line⟩
      | .ok none => .ok ([], c :: r)
      | .ok (some (kind, n)) =>
        let text := c :: r.take n
        match trivia sameLine (line + lineBreaks text) (r.drop n) with
        | .error e => .error e
        | .ok (ts, rest) => .ok (⟨kind, text⟩ :: ts, rest)
termination_by s => s.length
decreasing_by
  simp only [List.length_drop, List.length_cons]
  omega

/-- Trivia and what follows it are the text they were cut from. -/
theorem trivia_append {sameLine : Bool} {line : Nat} {s : Text} {ts : Trivia} {rest : Text}
    (h : trivia sameLine line s = .ok (ts, rest)) : ts.text ++ rest = s := by
  fun_induction trivia sameLine line s generalizing ts rest with
  | case1 => simp_all [Trivia.text]
  | case2 => simp_all [Trivia.text]
  | case3 => simp_all
  | case4 => simp_all [Trivia.text]
  | case5 => simp_all
  | case6 line c r _ kind n _ piece us q hq =>
    rename_i ih
    simp only [Except.ok.injEq, Prod.mk.injEq] at h
    obtain ⟨rfl, rfl⟩ := h
    have tail := ih hq
    simp only [Trivia.text, List.flatMap_cons] at tail ⊢
    simp [piece, tail]

/-- What follows trivia is not longer than the text it was cut from. -/
theorem length_trivia_le {sameLine : Bool} {line : Nat} {s : Text} {ts : Trivia} {rest : Text}
    (h : trivia sameLine line s = .ok (ts, rest)) : rest.length ≤ s.length := by
  rw [← trivia_append h]; simp

/-- The tokens of a text that stands on line `line` behind the token `last`, the trivia
`leading` being already taken. -/
def tokens (last : Option Token) (line : Nat) (leading : Trivia) : Text → Except Failure Lexed
  | [] => .ok ⟨[], ⟨.endOfFile, [], leading, [], line⟩⟩
  | c :: r =>
    match Lexeme.tokenAt last c r with
    | .error cause => .error ⟨cause, line⟩
    | .ok (kind, n) =>
      let text := c :: r.take n
      let endLine := line + lineBreaks text
      match _behind : trivia true endLine (r.drop n) with
      | .error e => .error e
      | .ok (trailing, r₁) =>
        let nextLine := endLine + trailing.lineBreaks
        match _ahead : trivia false nextLine r₁ with
        | .error e => .error e
        | .ok (next, r₂) =>
          let token : Token := ⟨kind, text, leading, trailing, line⟩
          (tokens (some token) (nextLine + next.lineBreaks) next r₂).map (Lexed.cons token)
termination_by s => s.length
decreasing_by
  have h₁ := length_trivia_le _behind
  have h₂ := length_trivia_le _ahead
  simp only [List.length_drop, List.length_cons] at *
  omega

/-- The interpreter line of a source, if it starts with one. -/
def shebang (s : Text) : Trivia :=
  if "#!".toList.isPrefixOf s then [⟨.shebang, s.take (Lexeme.lineLength s)⟩] else []

end Scan

/-- The tokens of a source. -/
def tokenize (source : Text) : Except Failure Lexed :=
  let first := Scan.shebang source
  match Scan.trivia false 1 (source.drop first.text.length) with
  | .error e => .error e
  | .ok (ts, rest) => Scan.tokens none (1 + ts.lineBreaks) (first ++ ts) rest

end Unflag

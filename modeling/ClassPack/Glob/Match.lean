import ClassPack.Glob.Pattern

/-!
# Match — which paths a glob matches

Matching is by characters, and two of them are special: a slash is matched only by itself and by
`**`, and a dot at the front of a component only by itself.

A star tries ever more characters. `Verdict` tells apart the two ways in which a try can fail:
another try with more characters may help, or the text has been used up and none will.
-/

namespace ClassPack
namespace Glob

/-- What comes of matching tokens against a text. -/
inductive Verdict where
  | matched
  /-- Not so, but a star before may take more characters. -/
  | retry
  /-- Not so, and no star before can help. -/
  | hopeless
  deriving DecidableEq, Repr

/-- Whether one character can stand for a token that takes one; `fresh` says that a component starts
there. -/
def Token.accepts (t : Token) (fresh : Bool) (c : Char) : Bool :=
  let open_ := c != '/' && !(fresh && c == '.')
  match t with
  | .char d => c == d
  | .one => open_
  | .within members => open_ && members.any (·.covers c)
  | .without members => open_ && !members.any (·.covers c)
  | .some | .deep => false

/-- Lets a star take one character after the other, and goes on with the tokens behind it wherever
it may end: anywhere for `*`, at the start of a component for `**`. -/
def sweep (deep : Bool) (go : List Char → Bool → Verdict) : List Char → Bool → Verdict
  | [], fresh => go [] fresh
  | c :: text, fresh =>
      if fresh && c == '.' then .retry
      else
        let fresh' := c == '/'
        if deep && !fresh' then sweep deep go text fresh'
        else if !deep && fresh' then .retry
        else
          match go text fresh' with
          | .retry => sweep deep go text fresh'
          | verdict => verdict

/-- Matches tokens against a text; `fresh` says that a component starts there. -/
def run : List Token → List Char → Bool → Verdict
  | [], text, _ => if text = [] then .matched else .retry
  | .some :: rest, text, fresh =>
      match run rest text fresh with
      | .retry => sweep false (run rest) text fresh
      | verdict => verdict
  | .deep :: rest, text, fresh =>
      match run rest text fresh with
      | .retry => sweep true (run rest) text fresh
      | verdict => verdict
  | _ :: _, [], _ => .hopeless
  | t :: rest, c :: text, fresh => if t.accepts fresh c then run rest text (c == '/') else .retry

theorem run_char_cons (d c : Char) (tokens : List Token) (text : List Char) (fresh : Bool) :
    run (.char d :: tokens) (c :: text) fresh = if c = d then run tokens text (c == '/')
      else .retry := by
  rw [run] <;> simp [Token.accepts]

/-- Whether a glob matches a path. -/
def isMatch (tokens : List Token) (path : String) : Bool := run tokens path.toList true == .matched

end Glob
end ClassPack

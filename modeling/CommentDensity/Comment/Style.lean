import CommentDensity.Text.Pattern

/-!
# CommentDensity.Comment.Style

The two comment grammars.  Both have line comments, `//` up to and with the
next `\n`; the F# style has blocks `(* … *)`, the C# style `/* … */`.

A grammar is the pattern of its comments.  The body of a block may not have
a `/` directly behind its stars, in *either* style: in C# that `/` is the
end, in F# it is a barrier that no block reaches across.  And `)` is not
kept out of an F# body, so an F# block runs on to the last `*)` before such
a barrier.
-/

namespace CommentDensity

/-- Which comments are counted. -/
inductive Style where
  /-- `//` lines and `(* … *)` blocks. -/
  | fsharp
  /-- `//` lines and `/* … */` blocks. -/
  | csharp
  deriving DecidableEq, Repr

/-- Where no style is named, F# is meant. -/
instance : Inhabited Style := ⟨.fsharp⟩

namespace Style

/-- The style a selector names: `fsharp` names F#, every other text C#. -/
def ofSelector (selector : String) : Style :=
  if selector = "fsharp" then .fsharp else .csharp

/-- The selector that a style is shown with. -/
def selector : Style → String
  | .fsharp => "fsharp"
  | .csharp => "csharp"

@[simp] theorem ofSelector_selector (s : Style) : ofSelector s.selector = s := by
  cases s <;> decide

/-- The character before a block's first star. -/
def opener : Style → Char
  | .fsharp => '('
  | .csharp => '/'

/-- The character behind a block's last star. -/
def closer : Style → Char
  | .fsharp => ')'
  | .csharp => '/'

/-- A line comment: `//`, any characters but `\n`, and a `\n`. -/
def linePattern : Pattern :=
  .seq (.char '/') (.seq (.char '/') (.seq (.star (.one (.noneOf ['\n']))) (.char '\n')))

/-- A block comment: the opener and stars, then stretches without stars,
each ended by stars and each after the first beginning with neither `/` nor
`*`, then the closer. -/
def blockPattern (style : Style) : Pattern :=
  let stars := Pattern.plus (.char '*')
  let plain := Pattern.star (.one (.noneOf ['*']))
  let stretch := Pattern.seq (.one (.noneOf ['/', '*'])) (.seq plain stars)
  .seq (.char style.opener)
    (.seq stars (.seq plain (.seq stars (.seq (.star stretch) (.char style.closer)))))

/-- A comment of the style. -/
def pattern (style : Style) : Pattern := .alt linePattern style.blockPattern

end Style

end CommentDensity

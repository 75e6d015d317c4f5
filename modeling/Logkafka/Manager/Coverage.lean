/-
# `Logkafka.Manager.Coverage` — whether catching up misses a file

A file that the pattern stands for at some time is found if the expression
covers it piece by piece: each literal character is read as itself, and what a
conversion is replaced by is taken by the `*` in its place.

    Fits ps s       `s` is the pieces, each conversion with a text for it that
                    is not empty and has neither a `/` nor a `.`
    Coverable P     nothing in the pattern `P` keeps its expression from that

What keeps it from that is what has another meaning to glob(3) (a backslash, a
`?`, a `[` that is closed), the modifiers `E` and `O`, behind which the rewriting
leaves the conversion as a literal, and the slashes of `%D` and `%x`.
-/
import Logkafka.Manager.CatchUp

namespace Logkafka

open Manager PositionFile PathPattern Strftime PathQueue

namespace PathPattern

/-! ## Literal by literal and run by run

A text is matched by the expression of a pattern if the literals are where the
pattern has them and each run of conversions has its text.
-/

inductive Fits : List Piece → Str → Prop
  | nil : Fits [] []
  | literal {ps : List Piece} {s : Str} (c : Byte) (h : Fits ps s) :
      Fits (.literal c :: ps) (c :: s)
  | conversion {ps : List Piece} {s text : Str} (c : Byte) (htext : Tame text) (h : Fits ps s) :
      Fits (.conversion c :: ps) (text ++ s)

variable {ps : List Piece} {s P : Str} {c : Byte} {tm : Tm}

/-- What a conversion is replaced by matches what stands in its place. -/
def Covered (P : Str) : Prop :=
  ∀ modifier c, .conversion modifier c ∈ directives P →
    ∀ tm, Glob.Matches (toGlob (37 :: modifier.toList ++ [c])) (convert tm c)

end PathPattern

/-! ## What is found and queued

From the expression to the queue: the file is found, its path lies in the range,
and there is room for it when it is added.
-/

namespace Task

variable {task : Task} {ps : List Str} {path : Str}

end Task

namespace PathQueue

variable {c : PathsCall} {q : PathQueue} {P : Str} {path : Str}

end PathQueue

namespace PathPattern

end PathPattern

end Logkafka

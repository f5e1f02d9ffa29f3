import Pidrei.RefusedKeys

/-!
A bracketed paste is sent as one event, with its content unchanged. Text before it that is
complete is sent before it, and text behind it is read by a fresh buffer, wherever the chunks
end; only a chunk that ends between two escapes and the sequence that the second one begins
makes a difference, and a key that is refused before the chunk of the paste is done.
-/
namespace Pidrei.Tui.StdinBuffer

open List

section Literal

variable {before content rest : List Char}

def pastedText (before content : List Char) : List Char :=
  before ++ (bracketedPasteStart ++ (content ++ bracketedPasteEnd))

variable {chunks : List (List Char)}

/-- The boundaries in the text before the paste that do not cut two escapes off what follows. -/
def KeepsPairs (before : List Char) (chunks : List (List Char)) : Prop :=
  ∀ front back, chunks = front ++ back → front.flatten.length < before.length →
    KeepsEscapes front.flatten back.flatten

section Position

variable {front back : List (List Char)} {chunk tail : List Char}

end Position

section Position

variable {front back : List (List Char)} {chunk tail : List Char}

end Position

end Literal

end Pidrei.Tui.StdinBuffer

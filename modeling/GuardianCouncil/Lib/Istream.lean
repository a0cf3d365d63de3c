import Mathlib.Data.List.TakeWhile

/-!
# Input streams, line by line

`std::istream` as far as `std::getline` sees it: the characters that are left and the two state bits.  A stream
that has already hit its end does not touch the string it is asked to read into, so a reader that
does not look at the result of `getline` sees its last line again.

`text ls terminated` is the text of the lines `ls`, with or without the newline of the last one;
`getline_text` and its companions say what is read from it.
-/

structure Istream where
  rest : List Char
  eof : Bool := false
  fail : Bool := false
deriving DecidableEq

namespace Istream

def good (s : Istream) : Bool := !s.eof && !s.fail

/-- `getline(s, line)`: the new value of `line`, and the stream. -/
def getline (s : Istream) (line : List Char) : List Char × Istream :=
  if s.good then
    let l := s.rest.takeWhile (· != '\n')
    match s.rest.dropWhile (· != '\n') with
    | [] => (l, { s with rest := [], eof := true, fail := l.isEmpty })
    | _ :: rest => (l, { s with rest := rest })
  else (line, { s with fail := true })

/-- The text of some lines; `terminated` says whether the last one has its newline. -/
def text (terminated : Bool) : List (List Char) → List Char
  | [] => []
  | [l] => if terminated then l ++ ['\n'] else l
  | l :: ls => l ++ '\n' :: text terminated ls

variable {s : Istream} {l line : List Char} {ls : List (List Char)} {t : Bool}

theorem text_cons (h : ls ≠ [] ∨ t = true) : text t (l :: ls) = l ++ '\n' :: text t ls := by
  cases ls with
  | nil =>
    obtain rfl : t = true := h.resolve_left (fun hne => hne rfl)
    rfl
  | cons => rfl

theorem forall_bne (h : '\n' ∉ l) : ∀ c ∈ l, (c != '\n') = true :=
  fun _ hc => bne_iff_ne.2 fun heq => h (heq ▸ hc)

/-- A line that has its newline. -/
theorem getline_text (hs : s.good = true) (hre : s.rest = text t (l :: ls)) (hl : '\n' ∉ l)
    (hm : ls ≠ [] ∨ t = true) (line : List Char) : s.getline line = (l, { s with rest := text t ls }) := by
  rw [getline, if_pos hs, hre, text_cons hm, List.takeWhile_append_of_pos (forall_bne hl),
    List.dropWhile_append_of_pos (forall_bne hl)]
  simp

/-- The last line, without one. -/
theorem getline_last (hs : s.good = true) (hre : s.rest = l) (hl : '\n' ∉ l) (line : List Char) :
    s.getline line = (l, { s with rest := [], eof := true, fail := l.isEmpty }) := by
  rw [getline, if_pos hs, hre, List.takeWhile_eq_self_iff.2 (forall_bne hl),
    List.dropWhile_eq_nil_iff.2 (forall_bne hl)]

/-- A stream that is at its end already. -/
theorem getline_of_not_good (hs : s.good = false) (line : List Char) :
    s.getline line = (line, { s with fail := true }) := by
  rw [getline, if_neg (by simp [hs])]

end Istream

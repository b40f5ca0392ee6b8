import Mathlib.Data.List.Infix

set_option relaxedAutoImplicit false
set_option autoImplicit false

/-!
# Lines of a text

Reading a text line by line the way Python does: `str.splitlines` ends a line at any of a number
of control and separator characters, a carriage return followed by a line feed ending it once,
and `str.strip` removes white space from both ends.

## Main definitions

* `TextLines.scan` — the complete lines of a text, and the unfinished line at its end.
* `TextLines.splitLines`, `TextLines.strip`.

## Main results

* `TextLines.scan_append` — a text is scanned piece by piece.
* `TextLines.strip_append` — stripping keeps an end that neither starts nor ends with a space.
-/

namespace TextLines

/-- The characters that end a line. -/
def isLineBreak (c : Char) : Bool :=
  c.toNat ∈ [0x0a, 0x0b, 0x0c, 0x0d, 0x1c, 0x1d, 0x1e, 0x85, 0x2028, 0x2029]

/-- The characters that are stripped. -/
def isSpace (c : Char) : Bool :=
  c.toNat ∈ [0x09, 0x0a, 0x0b, 0x0c, 0x0d, 0x1c, 0x1d, 0x1e, 0x1f, 0x20, 0x85, 0xa0, 0x1680,
      0x2028, 0x2029, 0x202f, 0x205f, 0x3000] ∨
    0x2000 ≤ c.toNat ∧ c.toNat ≤ 0x200a

/-- The lines that are complete at the end of a text, and what there is of the next one; `line`
is the beginning of the first. -/
def scan (line : List Char) : List Char → List (List Char) × List Char
  | [] => ([], line)
  | '\r' :: '\n' :: text => (line :: (scan [] text).1, (scan [] text).2)
  | c :: text =>
    if isLineBreak c then (line :: (scan [] text).1, (scan [] text).2)
    else scan (line ++ [c]) text

/-- The unfinished line at the end of a text. -/
def unfinished (text : List Char) : List Char := (scan [] text).2

/-- The lines of a text; the last one need not be complete. -/
def splitLines (text : List Char) : List (List Char) :=
  (scan [] text).1 ++ if unfinished text = [] then [] else [unfinished text]

/-- Remove white space from both ends. -/
def strip (text : List Char) : List Char :=
  ((text.dropWhile isSpace).reverse.dropWhile isSpace).reverse

/-- Characters that end no line continue the line at hand. -/
theorem scan_plain (line piece text : List Char) (h : piece.any isLineBreak = false) :
    scan line (piece ++ text) = scan (line ++ piece) text := by
  induction piece generalizing line with
  | nil => rw [List.nil_append, List.append_nil]
  | cons c piece ih =>
    rw [List.any_cons, Bool.or_eq_false_iff] at h
    have hc : ¬isLineBreak c = true := by simp [h.1]
    rw [List.cons_append, scan, if_neg hc, ih _ h.2, List.append_assoc, List.singleton_append]
    rintro _ rfl
    exact absurd rfl hc

/-- A text is scanned piece by piece, unless a carriage return and a line feed are torn apart. -/
theorem scan_append (line text more : List Char) (hmore : more.head? ≠ some '\n') :
    scan line (text ++ more) =
      ((scan line text).1 ++ (scan (scan line text).2 more).1,
        (scan (scan line text).2 more).2) := by
  fun_induction scan line text with
  | case1 line => rfl
  | case2 line text ih => simp [scan, ih]
  | case3 line c text hne hbreak ih =>
    rw [List.cons_append, scan, if_pos hbreak, ih]
    · simp
    · rintro text' rfl hsplit
      cases text with
      | nil => exact hmore (by rw [List.nil_append] at hsplit; rw [hsplit]; rfl)
      | cons d text =>
        obtain ⟨rfl, rfl⟩ := List.cons.inj hsplit
        exact hne text rfl rfl
  | case4 line c text hne hbreak ih =>
    rw [List.cons_append, scan, if_neg hbreak, ih]
    rintro text' rfl hsplit
    exact hbreak (by decide)

theorem splitLines_of_unfinished_eq_nil {text : List Char} (h : unfinished text = []) :
    splitLines text = (scan [] text).1 := by
  rw [splitLines, if_pos h, List.append_nil]

theorem splitLines_of_unfinished_ne_nil {text : List Char} (h : unfinished text ≠ []) :
    splitLines text = (scan [] text).1 ++ [unfinished text] := by
  rw [splitLines, if_neg h]

/-- Stripping keeps an end that neither starts nor ends with white space. -/
theorem strip_append (text more : List Char) (hne : more ≠ [])
    (hfirst : more.head?.any isSpace = false) (hlast : more.getLast?.any isSpace = false) :
    strip (text ++ more) = text.dropWhile isSpace ++ more := by
  have hfront : more.dropWhile isSpace = more := by
    cases more with
    | nil => exact absurd rfl hne
    | cons c more =>
      have hc : isSpace c = false := hfirst
      exact List.dropWhile_cons_of_neg (by simp [hc])
  have hstart : (text ++ more).dropWhile isSpace = text.dropWhile isSpace ++ more := by
    rw [List.dropWhile_append]
    split_ifs with hempty
    · rw [hfront, List.isEmpty_iff.mp hempty, List.nil_append]
    · rfl
  have hback : more.reverse.dropWhile isSpace = more.reverse := by
    cases hrev : more.reverse with
    | nil => exact absurd (List.reverse_eq_nil_iff.mp hrev) hne
    | cons c rest =>
      rw [← List.head?_reverse, hrev] at hlast
      have hc : isSpace c = false := hlast
      exact List.dropWhile_cons_of_neg (by simp [hc])
  rw [strip, hstart, List.reverse_append, List.dropWhile_append, hback]
  split_ifs with hempty
  · exact absurd (List.reverse_eq_nil_iff.mp (List.isEmpty_iff.mp hempty)) hne
  · rw [List.reverse_append, List.reverse_reverse, List.reverse_reverse]

end TextLines

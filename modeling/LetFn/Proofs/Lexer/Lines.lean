import LetFn.Token.Lexer
import Mathlib.Data.List.DropRight
import Mathlib.Data.String.Basic

/-!
# Counting lines by bytes

A lexer counts the bytes that are line feeds, and goes on where it stopped the last time. However it
came to an offset between two characters, it has there what counting characters gives: no byte of
another character is a line feed.

* `slice_ofList`: the text between two offsets, where these lie between characters.
* `Position.after`: the place behind a text, by counting its characters.
* `Lines.behind`: the lines of all that stands before an offset; `Lines.behind_upTo` says that
  counting on from there comes to those of more text.
* `Lines.behind_position`: the place there is `Position.after`.
-/

namespace LetFn

/-! ## Offsets between characters -/

theorem byteLength_eq_utf8Len (cs : List Char) : byteLength cs = String.utf8Len cs :=
  String.utf8ByteSize_ofList cs

@[simp] theorem byteLength_nil : byteLength [] = 0 := by simp [byteLength]

@[simp] theorem byteLength_append (cs ds : List Char) :
    byteLength (cs ++ ds) = byteLength cs + byteLength ds := by simp [byteLength]

theorem slice_ofList (cs ds es : List Char) :
    slice (String.ofList (cs ++ ds ++ es)) (byteLength cs) (byteLength (cs ++ ds)) =
      String.ofList ds := by
  rw [byteLength_append, byteLength_eq_utf8Len, byteLength_eq_utf8Len]
  exact String.extract_of_valid cs ds es

/-- The bytes of some characters. -/
def bytesOf (cs : List Char) : List UInt8 := cs.flatMap String.utf8EncodeChar

theorem toUTF8_ofList (cs : List Char) : (String.ofList cs).toUTF8.data.toList = bytesOf cs := by
  simp [bytesOf, List.utf8Encode]

theorem length_bytesOf (cs : List Char) : (bytesOf cs).length = byteLength cs := by
  simp [bytesOf, byteLength, String.utf8ByteSize, List.utf8Encode]

/-- A byte is a line feed only if it is one as a character. -/
theorem not_mem_utf8EncodeChar {c : Char} (hc : c ≠ '\n') : 10 ∉ String.utf8EncodeChar c := by
  have hne : c.val.toNat ≠ 10 := fun h => hc (Char.ext (UInt32.toNat_inj.1 h))
  intro hmem
  unfold String.utf8EncodeChar at hmem
  dsimp only at hmem
  -- of several bytes, each has its high bit set
  repeat' split at hmem
  all_goals
    simp only [List.mem_cons, List.not_mem_nil, or_false, ← UInt8.toNat_inj, UInt8.toNat_ofNat',
      UInt8.reduceToNat] at hmem
    omega

/-! ## Places by counting -/

/-- The place behind a text: its line feeds and the characters since the last of them, counted
from 1. -/
def Position.after (cs : List Char) : Position :=
  ⟨1 + cs.count '\n', 1 + (cs.rtakeWhile (· ≠ '\n')).length⟩

namespace Lines

/-- The lines of some text, counted up to its end. The last one starts behind the last line feed. -/
def behind (cs : List Char) : Lines :=
  ⟨byteLength cs, 1 + cs.count '\n', byteLength (cs.rdropWhile (· ≠ '\n'))⟩

theorem behind_nil : behind [] = start := by simp [behind, start]

/-! ## Counting on -/

theorem foldl_count_of_not_mem {bs : List UInt8} (h : 10 ∉ bs) (n : Lines) (i : Nat) :
    (bs.zipIdx i).foldl count n = n := by
  induction bs generalizing i with
  | nil => rfl
  | cons b bs ih =>
    rw [List.mem_cons, not_or] at h
    rw [List.zipIdx_cons, List.foldl_cons, count, if_neg (Ne.symm h.1), ih h.2]

/-- All the bytes of a character count as one line feed, or as none. -/
theorem foldl_count_char (c : Char) (n : Lines) (i : Nat) :
    ((String.utf8EncodeChar c).zipIdx i).foldl count n =
      if c = '\n' then { n with line := n.line + 1, lineStart := i + 1 } else n := by
  split
  · next h =>
    subst h
    rfl
  · next h => exact foldl_count_of_not_mem (not_mem_utf8EncodeChar h) n i

theorem foldl_count_behind (cs ds : List Char) :
    ((bytesOf ds).zipIdx (byteLength cs)).foldl count (behind cs) =
      { behind (cs ++ ds) with scanned := byteLength cs } := by
  induction ds using List.reverseRecOn with
  | nil => simp [bytesOf, behind]
  | append_singleton ds c ih =>
    have hbytes : bytesOf (ds ++ [c]) = bytesOf ds ++ String.utf8EncodeChar c := by simp [bytesOf]
    rw [hbytes, List.zipIdx_append, List.foldl_append, ih, length_bytesOf, foldl_count_char,
      ← List.append_assoc]
    by_cases hc : c = '\n'
    · have hfeed : byteLength ['\n'] = 1 := rfl
      subst hc
      rw [if_pos rfl, behind, behind, List.rdropWhile_concat_neg _ _ _ (by simp)]
      simp [Nat.add_assoc, hfeed]
    · rw [if_neg hc, behind, behind, List.rdropWhile_concat_pos _ _ _ (by simpa using hc)]
      simp [hc]

/-- Counting goes on where it stopped. -/
theorem behind_upTo (cs ds es : List Char) :
    (behind cs).upTo (String.ofList (cs ++ ds ++ es)) (byteLength (cs ++ ds)) =
      behind (cs ++ ds) := by
  have hslice : slice (String.ofList (cs ++ ds ++ es)) (behind cs).scanned (byteLength (cs ++ ds)) =
      String.ofList ds := slice_ofList cs ds es
  rw [upTo, hslice, toUTF8_ofList]
  exact congrArg (fun n : Lines => { n with scanned := byteLength (cs ++ ds) })
    (foldl_count_behind cs ds)

theorem behind_position (cs es : List Char) :
    (behind cs).position (String.ofList (cs ++ es)) = .after cs := by
  have hline : cs.rdropWhile (· ≠ '\n') ++ cs.rtakeWhile (· ≠ '\n') = cs :=
    List.rdropWhile_append_rtakeWhile
  have hslice := slice_ofList (cs.rdropWhile (· ≠ '\n')) (cs.rtakeWhile (· ≠ '\n')) es
  rw [hline] at hslice
  rw [position, behind, hslice, String.length_ofList, Position.after, Nat.add_comm _ 1]

end Lines

end LetFn

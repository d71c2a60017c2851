import ReleaseLog.FileSystem.Basic
import ReleaseLog.Proofs.Numbering
import ReleaseLog.Proofs.Text.Layout
import ReleaseLog.Proofs.Text.Malformed

/-!
# Lines of octets

Octets are cut where a text is cut, at line feeds and carriage returns. Decoding the pieces one by
one gives the lines of the decoded text. So malformed octets stay in their line, and change no other
one.
-/

namespace ReleaseLog

/-! ## Cutting -/

section Cutting

variable {α : Type} {feed ret : α}

/-- Puts an item in front of the first piece, which it opens if there is none. -/
def consPiece (x : α) : List (List α) → List (List α)
  | [] => [[x]]
  | piece :: pieces => (x :: piece) :: pieces

/-- Cuts a list at each `feed`, at each `ret`, and at both in this order. A cut at the very end
opens no further piece. -/
def cut [DecidableEq α] (feed ret : α) : List α → List (List α)
  | [] => []
  | [x] => if x = feed ∨ x = ret then [[]] else [[x]]
  | x :: y :: rest =>
    if x = ret ∧ y = feed then [] :: cut feed ret rest
    else if x = feed ∨ x = ret then [] :: cut feed ret (y :: rest)
    else consPiece x (cut feed ret (y :: rest))

/-- Nothing is cut in this list. -/
def Uncut (feed ret : α) (xs : List α) : Prop :=
  feed ∉ xs ∧ ret ∉ xs

/-- These are the pieces of a list, by what ends the first of them. -/
inductive Cuts (feed ret : α) : List α → List (List α) → Prop
  | nothing : Cuts feed ret [] []
  | last (piece : List α) (hne : piece ≠ []) (h : Uncut feed ret piece) :
      Cuts feed ret piece [piece]
  | atFeed (piece : List α) (h : Uncut feed ret piece) {rest : List α} {pieces : List (List α)}
      (hrest : Cuts feed ret rest pieces) :
      Cuts feed ret (piece ++ feed :: rest) (piece :: pieces)
  | atBoth (piece : List α) (h : Uncut feed ret piece) {rest : List α} {pieces : List (List α)}
      (hrest : Cuts feed ret rest pieces) :
      Cuts feed ret (piece ++ ret :: feed :: rest) (piece :: pieces)
  | atRet (piece : List α) (h : Uncut feed ret piece) {rest : List α} {pieces : List (List α)}
      (hhead : rest.head? ≠ some feed) (hrest : Cuts feed ret rest pieces) :
      Cuts feed ret (piece ++ ret :: rest) (piece :: pieces)

theorem uncut_nil : Uncut feed ret [] := by
  simp [Uncut]

theorem uncut_cons {x : α} {xs : List α} :
    Uncut feed ret (x :: xs) ↔ (x ≠ feed ∧ x ≠ ret) ∧ Uncut feed ret xs := by
  simp only [Uncut, List.mem_cons, not_or, ne_eq, eq_comm (a := x)]
  exact and_and_and_comm

theorem uncut_append {xs ys : List α} :
    Uncut feed ret (xs ++ ys) ↔ Uncut feed ret xs ∧ Uncut feed ret ys := by
  simp only [Uncut, List.mem_append, not_or]
  exact and_and_and_comm

theorem Cuts.cons {x : α} (hfeed : x ≠ feed) (hret : x ≠ ret) {xs : List α}
    {pieces : List (List α)} (h : Cuts feed ret xs pieces) :
    Cuts feed ret (x :: xs) (consPiece x pieces) := by
  cases h with
  | nothing => exact .last [x] (by simp) (uncut_cons.mpr ⟨⟨hfeed, hret⟩, uncut_nil⟩)
  | last _ hne h => exact .last _ (by simp) (uncut_cons.mpr ⟨⟨hfeed, hret⟩, h⟩)
  | atFeed piece h hrest => exact .atFeed (x :: piece) (uncut_cons.mpr ⟨⟨hfeed, hret⟩, h⟩) hrest
  | atBoth piece h hrest => exact .atBoth (x :: piece) (uncut_cons.mpr ⟨⟨hfeed, hret⟩, h⟩) hrest
  | atRet piece h hhead hrest =>
      exact .atRet (x :: piece) (uncut_cons.mpr ⟨⟨hfeed, hret⟩, h⟩) hhead hrest

theorem cuts_cut [DecidableEq α] (feed ret : α) (xs : List α) :
    Cuts feed ret xs (cut feed ret xs) := by
  fun_induction cut feed ret xs with
  | case1 => exact .nothing
  | case2 x h =>
      rcases h with rfl | rfl
      · exact .atFeed [] uncut_nil .nothing
      · exact .atRet [] uncut_nil (by simp) .nothing
  | case3 x h =>
      rw [not_or] at h
      exact Cuts.nothing.cons h.1 h.2
  | case4 x y rest h ih =>
      obtain ⟨rfl, rfl⟩ := h
      exact .atBoth [] uncut_nil ih
  | case5 x y rest hboth h ih =>
      rcases h with rfl | rfl
      · exact .atFeed [] uncut_nil ih
      · exact .atRet [] uncut_nil (by simpa using fun hy => hboth ⟨rfl, hy⟩) ih
  | case6 x y rest _ h ih =>
      rw [not_or] at h
      exact ih.cons h.1 h.2

/-! ## The piece around some items -/

/-- What follows an uncut list goes on with its piece up to the first cut. -/
theorem exists_cuts_append [DecidableEq α] (feed ret : α) (back : List α) :
    ∃ rest after, ∀ xs, xs ≠ [] → Uncut feed ret xs →
      Cuts feed ret (xs ++ back) ((xs ++ rest) :: after) := by
  have hback := cuts_cut feed ret back
  generalize cut feed ret back = pieces at hback
  cases hback with
  | nothing =>
      refine ⟨[], [], fun xs hne hxs => ?_⟩
      rw [List.append_nil]
      exact .last xs hne hxs
  | last _ _ h =>
      refine ⟨back, [], fun xs hne hxs => ?_⟩
      exact .last (xs ++ back) (by simp [hne]) (uncut_append.mpr ⟨hxs, h⟩)
  | @atFeed piece h _ after hrest =>
      refine ⟨piece, after, fun xs _ hxs => ?_⟩
      rw [← List.append_assoc]
      exact .atFeed (xs ++ piece) (uncut_append.mpr ⟨hxs, h⟩) hrest
  | @atBoth piece h _ after hrest =>
      refine ⟨piece, after, fun xs _ hxs => ?_⟩
      rw [← List.append_assoc]
      exact .atBoth (xs ++ piece) (uncut_append.mpr ⟨hxs, h⟩) hrest
  | @atRet piece h _ after hhead hrest =>
      refine ⟨piece, after, fun xs _ hxs => ?_⟩
      rw [← List.append_assoc]
      exact .atRet (xs ++ piece) (uncut_append.mpr ⟨hxs, h⟩) hhead hrest

/-- What follows a list is cut as if only its last piece stood in front, unless a cut in two items
is torn apart. -/
theorem exists_cuts_of_cuts [DecidableEq α] (feed ret : α) (front : List α) :
    ∃ before last, Uncut feed ret last ∧ ∀ xs pieces, xs.head? ≠ some feed →
      Cuts feed ret (last ++ xs) pieces → Cuts feed ret (front ++ xs) (before ++ pieces) := by
  have hfront := cuts_cut feed ret front
  generalize cut feed ret front = pieces at hfront
  induction hfront with
  | nothing => exact ⟨[], [], uncut_nil, fun _ _ _ h => h⟩
  | last piece _ h => exact ⟨[], piece, h, fun _ _ _ h => h⟩
  | atFeed piece h _ ih =>
      obtain ⟨before, last, hlast, hcuts⟩ := ih
      refine ⟨piece :: before, last, hlast, fun xs pieces hxs hpieces => ?_⟩
      rw [List.append_assoc]
      exact .atFeed piece h (hcuts xs pieces hxs hpieces)
  | atBoth piece h _ ih =>
      obtain ⟨before, last, hlast, hcuts⟩ := ih
      refine ⟨piece :: before, last, hlast, fun xs pieces hxs hpieces => ?_⟩
      rw [List.append_assoc]
      exact .atBoth piece h (hcuts xs pieces hxs hpieces)
  | @atRet piece h rest _ hhead _ ih =>
      obtain ⟨before, last, hlast, hcuts⟩ := ih
      refine ⟨piece :: before, last, hlast, fun xs pieces hxs hpieces => ?_⟩
      have hjoin : (rest ++ xs).head? ≠ some feed := by
        cases rest with
        | nil => exact hxs
        | cons y rest => exact hhead
      rw [List.append_assoc]
      exact .atRet piece h hjoin (hcuts xs pieces hxs hpieces)

/-- Uncut items, whichever they are, stand in one piece, and the other pieces do not depend on
them. -/
theorem exists_cuts_around [DecidableEq α] (feed ret : α) (front back : List α) :
    ∃ before left right after, ∀ xs, xs ≠ [] → Uncut feed ret xs →
      Cuts feed ret (front ++ xs ++ back) (before ++ (left ++ xs ++ right) :: after) := by
  obtain ⟨right, after, hback⟩ := exists_cuts_append feed ret back
  obtain ⟨before, left, hleft, hfront⟩ := exists_cuts_of_cuts feed ret front
  refine ⟨before, left, right, after, fun xs hne hxs => ?_⟩
  have hpiece : Cuts feed ret (left ++ (xs ++ back)) ((left ++ xs ++ right) :: after) := by
    rw [← List.append_assoc]
    exact hback (left ++ xs) (by simp [hne]) (uncut_append.mpr ⟨hleft, hxs⟩)
  have hhead : (xs ++ back).head? ≠ some feed := by
    obtain ⟨x, xs, rfl⟩ := List.exists_cons_of_ne_nil hne
    simpa using (uncut_cons.mp hxs).1.1
  rw [List.append_assoc]
  exact hfront (xs ++ back) _ hhead hpiece

end Cutting

/-! ## The lines of a text -/

namespace Text

theorem lines_of_cuts {s : Text} {pieces : List Text} (h : Cuts '\n' '\r' s pieces) :
    s.lines = pieces := by
  induction h with
  | nothing => exact lines_nil
  | last piece hne h => rw [lines_of_unbroken h, if_neg hne]
  | @atFeed piece h rest _ _ ih =>
      have hline : lines (piece ++ (Stop.feed.text ++ rest)) = _ := lines_line h (by simp)
      rwa [ih] at hline
  | @atBoth piece h rest _ _ ih =>
      have hline : lines (piece ++ (Stop.returnFeed.text ++ rest)) = _ := lines_line h (by simp)
      rwa [ih] at hline
  | @atRet piece h rest _ hhead _ ih =>
      have hline : lines (piece ++ (Stop.loneReturn.text ++ rest)) = _ :=
        lines_line h fun _ => hhead
      rwa [ih] at hline

/-- The lines of a text are its pieces. -/
theorem lines_eq_cut (s : Text) : s.lines = cut '\n' '\r' s :=
  lines_of_cuts (cuts_cut _ _ s)

end Text

/-! ## Decoding the pieces -/

namespace Utf8

theorem uncut_decodeLossy {bytes : Bytes} (h : Uncut 0x0A 0x0D bytes) :
    Uncut '\n' '\r' (decodeLossy bytes) :=
  ⟨fun hfeed => h.1 (mem_of_mem_decodeLossy (by decide) hfeed),
    fun hret => h.2 (mem_of_mem_decodeLossy (by decide) hret)⟩

theorem head?_decodeLossy_ne_feed {bytes : Bytes} (h : bytes.head? ≠ some 0x0A) :
    (decodeLossy bytes).head? ≠ some '\n' := by
  intro hhead
  obtain ⟨s, hs⟩ := List.head?_eq_some_iff.mp hhead
  obtain ⟨rest, rfl⟩ := exists_of_decodeLossy_cons (by decide) hs
  exact h rfl

theorem cuts_decodeLossy {bytes : Bytes} {pieces : List Bytes} (h : Cuts 0x0A 0x0D bytes pieces) :
    Cuts '\n' '\r' (decodeLossy bytes) (pieces.map decodeLossy) := by
  have hfeed : ∀ front back, decodeLossy (front ++ 0x0A :: back) =
      decodeLossy front ++ '\n' :: decodeLossy back := decodeLossy_append_ascii (by decide)
  have hret : ∀ front back, decodeLossy (front ++ 0x0D :: back) =
      decodeLossy front ++ '\r' :: decodeLossy back := decodeLossy_append_ascii (by decide)
  induction h with
  | nothing => exact .nothing
  | last piece hne h => exact .last _ (decodeLossy_ne_nil hne) (uncut_decodeLossy h)
  | atFeed piece h _ ih =>
      rw [hfeed]
      exact .atFeed _ (uncut_decodeLossy h) ih
  | atBoth piece h _ ih =>
      rw [hret, ← List.nil_append (0x0A :: _), hfeed]
      exact .atBoth _ (uncut_decodeLossy h) ih
  | atRet piece h hhead _ ih =>
      rw [hret]
      exact .atRet _ (uncut_decodeLossy h) (head?_decodeLossy_ne_feed hhead) ih

/-- The pieces can be decoded one by one. -/
theorem lines_decodeLossy (bytes : Bytes) :
    (decodeLossy bytes).lines = (cut 0x0A 0x0D bytes).map decodeLossy :=
  Text.lines_of_cuts (cuts_decodeLossy (cuts_cut _ _ bytes))

theorem decodeLossy_of_decode? {bytes : Bytes} {s : Text} (h : decode? bytes = some s) :
    decodeLossy bytes = s := by
  rw [decode?_eq_some_iff.mp h, decodeLossy_encode]

/-- A well-formed line is seen with its number and its text. -/
theorem getElem?_ofTexts_decodeLossy {bytes piece : Bytes} {i : Nat} {s : Text}
    (hpiece : (cut 0x0A 0x0D bytes)[i]? = some piece) (hs : decode? piece = some s) :
    (Line.ofTexts (decodeLossy bytes).lines)[i]? = some (.ofText (i + 1) s) := by
  rw [Line.ofTexts, Line.getElem?_numberedFrom, lines_decodeLossy, List.getElem?_map, hpiece,
    Nat.add_comm]
  simp [decodeLossy_of_decode? hs]

/-- Octets between two breaks stand in one line, and the others do not depend on them. -/
theorem exists_lines_around (front back : Bytes) :
    ∃ (before after : List Line) (left right : Bytes), ∀ octets, octets ≠ [] →
      Uncut 0x0A 0x0D octets →
      Line.ofTexts (decodeLossy (front ++ octets ++ back)).lines =
        before ++ .ofText (before.length + 1) (decodeLossy (left ++ octets ++ right)) :: after := by
  obtain ⟨before, left, right, after, hcuts⟩ :=
    exists_cuts_around (0x0A : UInt8) 0x0D front back
  refine ⟨Line.ofTexts (before.map decodeLossy),
    Line.numberedFrom (before.length + 2) (after.map decodeLossy), left, right, ?_⟩
  intro octets hne huncut
  rw [Text.lines_of_cuts (cuts_decodeLossy (hcuts octets hne huncut)), List.map_append,
    List.map_cons, Line.ofTexts_append, Line.numberedFrom_cons, Line.ofTexts,
    Line.length_numberedFrom, List.length_map, Nat.add_comm 1]

/-- Octets and their decoded text have the same lines, and malformed octets change no line but their
own. A well-formed file is checked as its text. -/
theorem malformed_stays_in_line :
    (∀ s : Text, s.lines = cut '\n' '\r' s) ∧
    (∀ bytes, (decodeLossy bytes).lines = (cut 0x0A 0x0D bytes).map decodeLossy) ∧
    (∀ (bytes piece : Bytes) (i : Nat) (s : Text),
      (cut 0x0A 0x0D bytes)[i]? = some piece → decode? piece = some s →
      (Line.ofTexts (decodeLossy bytes).lines)[i]? = some (.ofText (i + 1) s)) ∧
    (∀ front back : Bytes, ∃ (before after : List Line) (left right : Bytes), ∀ octets,
      octets ≠ [] → Uncut 0x0A 0x0D octets →
      Line.ofTexts (decodeLossy (front ++ octets ++ back)).lines =
        before ++ .ofText (before.length + 1) (decodeLossy (left ++ octets ++ right)) :: after) ∧
    ∀ (rules : RuleSet) (disk : Disk) (path : Path) (bytes : Bytes) (s : Text),
      disk.read? path = some bytes → decode? bytes = some s →
      rules.checkContent path (disk.read? path) = rules.checkText s := by
  refine ⟨Text.lines_eq_cut, lines_decodeLossy, ?_, exists_lines_around, ?_⟩
  · intro bytes piece i s hpiece hs
    exact getElem?_ofTexts_decodeLossy hpiece hs
  · intro rules disk path bytes s hread hs
    rw [hread, RuleSet.checkContent, decodeLossy_of_decode? hs]

-- Two unfinished sequences, before a terminator and at the end.
example : (decodeLossy [0x61, 0xE2, 0x82, 0x0D, 0x0A, 0xFF, 0x62, 0x0D, 0xF0, 0x9F]).lines =
    ["a\uFFFD".toList, "\uFFFDb".toList, "\uFFFD".toList] := by
  decide +kernel

end Utf8

end ReleaseLog

import Mathlib.Data.List.TakeWhile
import SexprReader.Proofs.Reader.Scan
import SexprReader.Source.Decoding

/-! Texts whose lines end with CR LF, beside the same texts with LF alone. A scanner that goes through
both is in the same line of both. Within a line end it can be ahead in one of them. -/

namespace SexprReader

namespace LineEnds

def join : List Char → List Char
  | [] => []
  | '\r' :: '\n' :: text => '\n' :: join text
  | c :: text => c :: join text

def Paired (text : List Char) : Prop := ∀ i, text[i]? = some '\r' → text[i + 1]? = some '\n'

instance (text : List Char) : Decidable (Paired text) :=
  decidable_of_iff (∀ i < text.length, text[i]? = some '\r' → text[i + 1]? = some '\n')
    ⟨fun paired i found => paired i (List.getElem?_eq_some_iff.mp found).1 found,
      fun paired i _ => paired i⟩

inductive Delivers : List Char → List Char → Prop
  | nil : Delivers [] []
  | lineEnd {x y : List Char} (others : Delivers x y) : Delivers ('\r' :: '\n' :: x) ('\n' :: y)
  | other {c : Char} {x y : List Char} (plain : c ≠ '\r') (others : Delivers x y) :
      Delivers (c :: x) (c :: y)

theorem join_cons {c : Char} (plain : c ≠ '\r') (text : List Char) :
    join (c :: text) = c :: join text := by
  rw [join]
  intro _ same
  exact absurd same plain

theorem normalizeFrom_done (afterCR : Bool) (done text : List Char) :
    normalizeFrom afterCR done text = done.reverse ++ normalizeFrom afterCR [] text := by
  induction text generalizing afterCR done with
  | nil => simp [normalizeFrom]
  | cons c text ih =>
    unfold normalizeFrom
    split
    · rw [ih true ('\n' :: done), ih true ['\n']]
      simp
    · split
      · exact ih false done
      · rw [ih false (c :: done), ih false [c]]
        simp

theorem normalize_lineEnd (text : List Char) :
    normalize ('\r' :: '\n' :: text) = '\n' :: normalize text :=
  normalizeFrom_done false ['\n'] text

theorem normalize_other {c : Char} (plain : c ≠ '\r') (text : List Char) :
    normalize (c :: text) = c :: normalize text := by
  have first : normalize (c :: text) = normalizeFrom false [c] text := by
    simp [normalize, normalizeFrom, plain]
  exact first.trans (normalizeFrom_done false [c] text)

theorem Paired.tail {c : Char} {text : List Char} (paired : Paired (c :: text)) : Paired text :=
  fun i found => paired (i + 1) found

theorem Paired.delivers {text : List Char} (paired : Paired text) : Delivers text (normalize text) := by
  induction length : text.length using Nat.strongRecOn generalizing text with
  | ind n ih =>
    match text with
    | [] => exact .nil
    | c :: text =>
      by_cases ends : c = '\r'
      · subst ends
        have newline := paired 0 rfl
        match text with
        | [] => cases newline
        | d :: text =>
          cases newline
          rw [normalize_lineEnd]
          exact .lineEnd (ih text.length (by simp at length; omega) paired.tail.tail rfl)
      · rw [normalize_other ends]
        exact .other ends (ih text.length (by simp at length; omega) paired.tail rfl)

namespace Delivers

variable {x y x' y' : List Char} {c : Char} {p : Char → Bool}

theorem join_eq (delivers : Delivers x y) : join x = y := by
  induction delivers with
  | nil => rfl
  | lineEnd _ ih => rw [join, ih]
  | other plain _ ih => rw [join_cons plain, ih]

theorem append (delivers : Delivers x y) (behind : Delivers x' y') : Delivers (x ++ x') (y ++ y') := by
  induction delivers with
  | nil => exact behind
  | lineEnd _ ih => exact .lineEnd ih
  | other plain _ ih => exact .other plain ih

theorem exists_other {z : List Char} (plain : c ≠ '\r') (delivers : Delivers (c :: x) z) :
    ∃ y, z = c :: y ∧ Delivers x y := by
  cases delivers with
  | lineEnd _ => exact absurd rfl plain
  | other _ others => exact ⟨_, rfl, others⟩

theorem exists_lineEnd {z : List Char} (delivers : Delivers ('\r' :: x) z) :
    ∃ x' y', x = '\n' :: x' ∧ z = '\n' :: y' ∧ Delivers x' y' := by
  cases delivers with
  | lineEnd others => exact ⟨_, _, rfl, rfl, others⟩
  | other plain _ => exact absurd rfl plain

theorem behind (first : Delivers x y) (both : Delivers (x ++ x') (y ++ y')) : Delivers x' y' := by
  induction first with
  | nil => exact both
  | lineEnd _ ih =>
    obtain ⟨_, _, same, same', others⟩ := both.exists_lineEnd
    cases same
    cases same'
    exact ih others
  | other plain _ ih =>
    obtain ⟨_, same, others⟩ := both.exists_other plain
    cases same
    exact ih others

theorem of_all (plain : ∀ c ∈ x, c ≠ '\r') : Delivers x x := by
  induction x with
  | nil => exact .nil
  | cons c x ih =>
    exact .other (plain c List.mem_cons_self)
      (ih fun d member => plain d (List.mem_cons_of_mem _ member))

theorem takeWhile_eq (delivers : Delivers x y) (cr : p '\r' = false) (lf : p '\n' = false) :
    x.takeWhile p = y.takeWhile p := by
  induction delivers with
  | nil => rfl
  | lineEnd _ _ =>
    rw [List.takeWhile_cons_of_neg (by simp [cr]), List.takeWhile_cons_of_neg (by simp [lf])]
  | other _ _ ih => rw [List.takeWhile_cons, List.takeWhile_cons, ih]

end Delivers

end LineEnds

structure Place.Level (p p' : Place) : Prop where
  line : p.line = p'.line
  last : p.last = p'.last
  plain : p.last ≠ some '\r'

namespace Place.Level

variable {p p' : Place} {c : Char}

theorem start (line column column' : Int) : (Place.start line column).Level (.start line column') :=
  ⟨rfl, rfl, nofun⟩

theorem endsLineBefore_eq (level : p.Level p') (c : Char) :
    p.endsLineBefore c = (p.last == some '\n') := by
  have plain := level.plain
  unfold endsLineBefore
  cases last : p.last with
  | none => rfl
  | some d =>
    have other : d ≠ '\r' := by simpa [last] using plain
    simp [other]

theorem line_advance (level : p.Level p') (c c' : Char) : (p.advance c).line = (p'.advance c').line := by
  have level' : p'.Level p' := ⟨rfl, rfl, level.last ▸ level.plain⟩
  unfold advance
  rw [level.endsLineBefore_eq, level'.endsLineBefore_eq, level.last]
  split
  · exact congrArg (· + 1) level.line
  · exact level.line

theorem advance (level : p.Level p') (plain : c ≠ '\r') : (p.advance c).Level (p'.advance c) where
  line := level.line_advance c c
  last := by simp
  plain := by simpa using plain

theorem lineEnd (level : p.Level p') : ((p.advance '\r').advance '\n').Level (p'.advance '\n') where
  line := by
    have stays : (p.advance '\r').endsLineBefore '\n' = false := by simp [endsLineBefore]
    rw [Place.advance, if_neg (by simp [stays])]
    exact level.line_advance '\r' '\n'
  last := by simp
  plain := by simp

theorem advanceAll {x y : List Char} (level : p.Level p') (delivers : LineEnds.Delivers x y) :
    (p.advanceAll x).Level (p'.advanceAll y) := by
  induction delivers generalizing p p' with
  | nil => exact level
  | lineEnd _ ih => exact ih level.lineEnd
  | other plain _ ih => exact ih (level.advance plain)

end Place.Level

namespace LineEnds

def Level (text text' x y : List Char) : Prop :=
  ∃ taken taken', text = taken ++ x ∧ text' = taken' ++ y ∧ Delivers taken taken' ∧ Delivers x y

namespace Level

variable {text text' x y : List Char} {c : Char}

theorem start (delivers : Delivers text text') : Level text text' text text' :=
  ⟨[], [], rfl, rfl, .nil, delivers⟩

theorem delivers (level : Level text text' x y) : Delivers x y := by
  obtain ⟨_, _, _, _, _, behind⟩ := level
  exact behind

theorem take {mid mid' : List Char} (delivers : Delivers mid mid')
    (level : Level text text' (mid ++ x) (mid' ++ y)) : Level text text' x y := by
  obtain ⟨taken, taken', split, split', before, behind⟩ := level
  refine ⟨taken ++ mid, taken' ++ mid', ?_, ?_, before.append delivers, delivers.behind behind⟩
  · rw [split, List.append_assoc]
  · rw [split', List.append_assoc]

theorem tail (plain : c ≠ '\r') (level : Level text text' (c :: x) (c :: y)) : Level text text' x y :=
  take (.other plain .nil) level

theorem lineEnd (level : Level text text' ('\r' :: '\n' :: x) ('\n' :: y)) : Level text text' x y :=
  take (.lineEnd .nil) level

theorem finish (level : Level text text' x y) : Level text text' [] [] := by
  refine take level.delivers ?_
  rw [List.append_nil, List.append_nil]
  exact level

theorem dropWhile {p : Char → Bool} (cr : p '\r' = false) (lf : p '\n' = false)
    (level : Level text text' x y) : Level text text' (x.dropWhile p) (y.dropWhile p) := by
  refine take (.of_all (x := x.takeWhile p) fun c member => ?_) ?_
  · rintro rfl
    simpa [cr] using List.mem_takeWhile_imp member
  · rw [List.takeWhile_append_dropWhile, level.delivers.takeWhile_eq cr lf,
      List.takeWhile_append_dropWhile]
    exact level

end Level

/-- What is left of two texts that are read side by side. They are at the same point, or the first one
is between CR and LF. Then the second one is behind the LF, or else before it and in the same line. -/
inductive Abreast (text text' : List Char) : List Char → List Char → Prop
  | even {x y : List Char} (level : Level text text' x y) : Abreast text text' x y
  | within {x y : List Char} (level : Level text text' ('\r' :: '\n' :: x) ('\n' :: y)) :
      Abreast text text' ('\n' :: x) y
  | before {x y taken : List Char} {c : Char}
      (level : Level text text' ('\r' :: '\n' :: x) ('\n' :: y))
      (split : text' = taken ++ c :: '\n' :: y) (inside : c ≠ '\n') :
      Abreast text text' ('\n' :: x) ('\n' :: y)

theorem Abreast.line_eq {text text' x y taken taken' : List Char} (abreast : Abreast text text' x y)
    (split : text = taken ++ x) (split' : text' = taken' ++ y) (line column column' : Int) :
    ((Place.start line column).advanceAll taken).line =
      ((Place.start line column').advanceAll taken').line := by
  have start := Place.Level.start line column column'
  cases abreast with
  | even level =>
    obtain ⟨before, before', behind, behind', delivers, -⟩ := level
    obtain rfl : taken = before := List.append_cancel_right (split.symm.trans behind)
    obtain rfl : taken' = before' := List.append_cancel_right (split'.symm.trans behind')
    exact (start.advanceAll delivers).line
  | within level =>
    obtain ⟨before, before', behind, behind', delivers, -⟩ := level
    obtain rfl : taken = before ++ ['\r'] :=
      List.append_cancel_right (split.symm.trans (behind.trans (by simp)))
    obtain rfl : taken' = before' ++ ['\n'] :=
      List.append_cancel_right (split'.symm.trans (behind'.trans (by simp)))
    simp only [Place.advanceAll_append]
    exact (start.advanceAll delivers).line_advance '\r' '\n'
  | @before _ _ inner c level ends inside =>
    obtain ⟨before, before', behind, behind', delivers, -⟩ := level
    obtain rfl : taken = before ++ ['\r'] :=
      List.append_cancel_right (split.symm.trans (behind.trans (by simp)))
    obtain rfl : taken' = before' := List.append_cancel_right (split'.symm.trans behind')
    obtain rfl : taken' = inner ++ [c] :=
      List.append_cancel_right (split'.symm.trans (ends.trans (by simp)))
    have level := start.advanceAll delivers
    have last : ((Place.start line column).advanceAll before).last = some c := by
      rw [level.last, Place.advanceAll_append]
      exact Place.advance_last _ c
    rw [Place.advanceAll_append, Place.advanceAll_cons, Place.advanceAll_nil, ← level.line,
      Place.advance, level.endsLineBefore_eq, last]
    simp [inside]

end LineEnds

end SexprReader

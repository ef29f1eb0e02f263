namespace SexprReader.Escape

def named : Char → Char
  | 'a' => '\x07'
  | 'b' => '\x08'
  | 'f' => '\x0c'
  | 'n' => '\n'
  | 'r' => '\r'
  | 't' => '\t'
  | 'v' => '\x0b'
  | c => c

/-- What has been replaced so far, latest first, and whether the last character was a backslash
that still waits for the one it escapes. -/
structure Progress where
  escaped : Bool
  done : List Char
deriving DecidableEq, Repr

def Progress.next (p : Progress) (c : Char) : Progress :=
  if p.escaped then ⟨false, named c :: p.done⟩
  else if c == '\\' then ⟨true, p.done⟩
  else ⟨false, c :: p.done⟩

def Progress.result (p : Progress) : List Char :=
  (if p.escaped then '\\' :: p.done else p.done).reverse

/-- Replaces each backslash, and the character behind it, by what they stand for. -/
def interpretChars (text : List Char) : List Char :=
  (text.foldl Progress.next ⟨false, []⟩).result

def interpret (text : String) : String := String.ofList (interpretChars text.toList)

theorem result_foldl_next (text : List Char) (escaped : Bool) (done : List Char) :
    (text.foldl Progress.next ⟨escaped, done⟩).result =
      done.reverse ++ (text.foldl Progress.next ⟨escaped, []⟩).result := by
  induction text generalizing escaped done with
  | nil => cases escaped <;> simp [Progress.result]
  | cons c text ih =>
    simp only [List.foldl_cons, Progress.next]
    cases escaped with
    | true =>
      simp only [if_true]
      rw [ih false (named c :: done), ih false [named c]]
      simp
    | false =>
      by_cases backslash : c = '\\'
      · simpa [backslash] using ih true done
      · simp only [Bool.false_eq_true, if_false, beq_iff_eq, backslash]
        rw [ih false (c :: done), ih false [c]]
        simp

theorem interpretChars_escape (c : Char) (text : List Char) :
    interpretChars ('\\' :: c :: text) = named c :: interpretChars text :=
  result_foldl_next text false [named c]

theorem interpretChars_cons {c : Char} (plain : c ≠ '\\') (text : List Char) :
    interpretChars (c :: text) = c :: interpretChars text := by
  simp only [interpretChars, List.foldl_cons, Progress.next, beq_iff_eq, plain,
    Bool.false_eq_true, if_false]
  exact result_foldl_next text false [c]

end SexprReader.Escape

import SexprReader.Proofs.Reader.Advance

namespace SexprReader

variable {σ V α β : Type}

/-- A read with the host in a given state and a given text still to be read. -/
structure ReadState.Stands (s : ReadState σ) (host : σ) (text : List Char) : Prop where
  host : s.host = host
  remaining : s.source.remaining = text
  ending : s.source.ending = .endOfInput

namespace ReadState.Stands

variable {s : ReadState σ} {host : σ} {text : List Char}

theorem decodable (stands : s.Stands host text) : s.source.atUndecodable = false := by
  simp [Source.atUndecodable, stands.ending]

theorem consume (stands : s.Stands host text) (taken rest : List Char) :
    ({ s with source := s.source.consume taken rest } : ReadState σ).Stands host rest :=
  ⟨stands.host, rfl, stands.ending⟩

end ReadState.Stands

namespace ReadM

/-- From one standing the computation goes on just as another does from a later standing. -/
def Becomes (m : ReadM σ α) (host : σ) (text : List Char) (next : ReadM σ α) (host' : σ)
    (rest : List Char) : Prop :=
  ∀ s : ReadState σ, s.Stands host text → ∃ s' : ReadState σ, s'.Stands host' rest ∧ m s = next s'

namespace Becomes

variable {m next last : ReadM σ α} {host host' host'' : σ} {text rest rest' : List Char}

theorem refl (m : ReadM σ α) (host : σ) (text : List Char) : m.Becomes host text m host text :=
  fun s stands => ⟨s, stands, rfl⟩

theorem trans (first : m.Becomes host text next host' rest)
    (second : next.Becomes host' rest last host'' rest') :
    m.Becomes host text last host'' rest' := by
  intro s stands
  obtain ⟨s', stands', same⟩ := first s stands
  obtain ⟨s'', stands'', same'⟩ := second s' stands'
  exact ⟨s'', stands'', same.trans same'⟩

theorem bind (first : m.Becomes host text next host' rest) (f : α → ReadM σ β) :
    (m >>= f).Becomes host text (next >>= f) host' rest := by
  intro s stands
  obtain ⟨s', stands', same⟩ := first s stands
  refine ⟨s', stands', ?_⟩
  cases result : next s' with
  | ok a s'' => rw [bind_of_ok result, bind_of_ok (same.trans result)]
  | error e s'' => rw [bind_of_error result, bind_of_error (same.trans result)]

theorem pure_bind {a : α} {f : α → ReadM σ β} {last : ReadM σ β}
    (first : m.Becomes host text (pure a) host' rest)
    (second : (f a).Becomes host' rest last host'' rest') :
    (m >>= f).Becomes host text last host'' rest' := by
  have moved := first.bind f
  rw [LawfulMonad.pure_bind] at moved
  exact moved.trans second

end Becomes

variable (host : σ) (text : List Char)

theorem peekChar_becomes : peekChar.Becomes host text (pure text.head?) host text := by
  intro s stands
  refine ⟨{ s with source := s.source.pull }, ⟨stands.host, ?_, ?_⟩, ?_⟩
  · exact (Source.remaining_pull s.source).trans stands.remaining
  · obtain ⟨_, -, -, ending, -⟩ := Source.Precedes.pull s.source
    exact ending.trans stands.ending
  · rw [peekChar_apply, stands.decodable, stands.remaining]
    rfl

theorem nextChar_becomes (c : Char) :
    nextChar.Becomes host (c :: text) (pure (some c)) host text := by
  intro s stands
  refine ⟨_, stands.consume [c] text, ?_⟩
  rw [nextChar_apply, stands.decodable, stands.remaining]
  rfl

theorem nextChar_becomes_none : nextChar.Becomes host [] (pure none) host [] := by
  intro s stands
  refine ⟨s, stands, ?_⟩
  rw [nextChar_apply, stands.decodable, stands.remaining]
  rfl

theorem takeWhile_becomes (p : Char → Bool) :
    (takeWhile p).Becomes host text (pure (text.takeWhile p)) host (text.dropWhile p) := by
  have consumes : (consumeWhile p).Becomes host text (pure (text.takeWhile p)) host
      (text.dropWhile p) := by
    intro s stands
    refine ⟨_, stands.consume (text.takeWhile p) (text.dropWhile p), ?_⟩
    rw [← stands.remaining]
    rfl
  exact consumes.pure_bind ((peekChar_becomes host _).pure_bind (.refl _ host _))

theorem takeThrough_becomes {S : Type} {scan : S → Char → Option S} {start : S} {text : List Char}
    {taken rest : List Char} (splits : splitThrough scan start [] text = some (taken, rest)) :
    (takeThrough scan start).Becomes host text (pure (some taken)) host rest := by
  intro s stands
  refine ⟨_, stands.consume taken rest, ?_⟩
  rw [takeThrough_apply, stands.remaining, splits]
  rfl

theorem takeThrough_becomes_none {S : Type} {scan : S → Char → Option S} {start : S}
    {text : List Char} (splits : splitThrough scan start [] text = none) :
    (takeThrough scan start).Becomes host text (pure none) host [] := by
  intro s stands
  refine ⟨_, stands.consume text [], ?_⟩
  have decodable : (s.source.consume text []).atUndecodable = false :=
    (stands.consume text []).decodable
  rw [takeThrough_apply, stands.remaining, splits]
  simp only [decodable]
  rfl

theorem reportHere_becomes (event : Option Int → Option Int → Event) :
    (reportHere event).Becomes host text (pure ()) host text := by
  intro s stands
  refine ⟨{ s with trace := s.trace.push (event s.source.line? s.source.column?) },
    ⟨stands.host, stands.remaining, stands.ending⟩, rfl⟩

theorem report_becomes (event : Event) :
    (report event).Becomes host text (pure ()) host text :=
  fun s stands =>
    ⟨{ s with trace := s.trace.push event }, ⟨stands.host, stands.remaining, stands.ending⟩, rfl⟩

theorem hosted_becomes {call : HostM σ α} {host host' : σ} {a : α} (ok : call host = .ok a host')
    (text : List Char) : (hosted call).Becomes host text (pure a) host' text := by
  intro s stands
  refine ⟨{ s with host := host' }, ⟨rfl, stands.remaining, stands.ending⟩, ?_⟩
  rw [hosted_apply, stands.host, ok]
  rfl

theorem hosted_becomes_throw {call : HostM σ α} {host host' : σ} {e : Failure}
    (error : call host = .error e host') (text : List Char) :
    (hosted call).Becomes host text (throw e) host' text := by
  intro s stands
  refine ⟨{ s with host := host' }, ⟨rfl, stands.remaining, stands.ending⟩, ?_⟩
  rw [hosted_apply, stands.host, error]
  rfl

end ReadM

end SexprReader

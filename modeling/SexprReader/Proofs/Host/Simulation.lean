import SexprReader.Proofs.Reader.Lexical

/-! Two readers side by side, each over a host of its own. They keep in step as long as their hosts
give answers that belong together. Some failures of the second host put an end to the comparison:
they excuse whatever the first one does. -/

namespace SexprReader

open ReadM

variable {σ σ' V V' α α' β β' : Type}

inductive InStep {S S' : Type} (excuses : Failure → Prop) (Q : α → α' → S → S' → Prop)
    (E : S → S' → Prop) : EStateM.Result Failure S α → EStateM.Result Failure S' α' → Prop
  | ok {a : α} {a' : α'} {s : S} {s' : S'} (holds : Q a a' s s') :
      InStep excuses Q E (.ok a s) (.ok a' s')
  | error {e : Failure} {s : S} {s' : S'} (holds : E s s') :
      InStep excuses Q E (.error e s) (.error e s')
  | excused {result : EStateM.Result Failure S α} {e : Failure} {s' : S'} (excused : excuses e) :
      InStep excuses Q E result (.error e s')

theorem InStep.bind {S S' : Type} {excuses : Failure → Prop} {Q : α → α' → S → S' → Prop}
    {R : β → β' → S → S' → Prop} {E : S → S' → Prop} {m : EStateM Failure S α}
    {m' : EStateM Failure S' α'} {f : α → EStateM Failure S β} {f' : α' → EStateM Failure S' β'}
    {s : S} {s' : S'} (first : InStep excuses Q E (m s) (m' s'))
    (next : ∀ a a' t t', Q a a' t t' → InStep excuses R E (f a t) (f' a' t')) :
    InStep excuses R E ((m >>= f) s) ((m' >>= f') s') := by
  change InStep excuses R E (EStateM.bind m f s) (EStateM.bind m' f' s')
  unfold EStateM.bind
  generalize m s = r at first
  generalize m' s' = r' at first
  cases first with
  | ok holds => exact next _ _ _ _ holds
  | error holds => exact .error holds
  | excused excused => exact .excused excused

namespace ReadM

/-- From the same source and from hosts that belong together two computations come to results that do,
with the same source left. -/
def Simulates (excuses : Failure → Prop) (P : σ → σ' → Prop) (m : ReadM σ α) (m' : ReadM σ' α')
    (Q : α → α' → σ → σ' → Prop) (E : σ → σ' → Prop) : Prop :=
  ∀ s s', s.source = s'.source → P s.host s'.host →
    InStep excuses (fun a a' t t' => t.source = t'.source ∧ Q a a' t.host t'.host)
      (fun t t' => t.source = t'.source ∧ E t.host t'.host) (m s) (m' s')

namespace Simulates

variable {excuses : Failure → Prop} {P E : σ → σ' → Prop} {Q : α → α' → σ → σ' → Prop}
  {R : β → β' → σ → σ' → Prop}

theorem pure {a : α} {a' : α'} (holds : ∀ h h', P h h' → Q a a' h h') :
    Simulates excuses P (pure a : ReadM σ α) (pure a' : ReadM σ' α') Q E :=
  fun _ _ source related => .ok ⟨source, holds _ _ related⟩

theorem throw {e : Failure} (holds : ∀ h h', P h h' → E h h') :
    Simulates excuses P (throw e : ReadM σ α) (throw e : ReadM σ' α') Q E :=
  fun _ _ source related => .error ⟨source, holds _ _ related⟩

theorem bind {m : ReadM σ α} {m' : ReadM σ' α'} {f : α → ReadM σ β} {f' : α' → ReadM σ' β'}
    (first : Simulates excuses P m m' Q E)
    (next : ∀ a a', Simulates excuses (Q a a') (f a) (f' a') R E) :
    Simulates excuses P (m >>= f) (m' >>= f') R E :=
  fun s s' source related => (first s s' source related).bind fun a a' t t' holds =>
    next a a' t t' holds.1 holds.2

theorem hostFree {m : ReadM σ α} {m' : ReadM σ' α} {Q : α → α → σ → σ' → Prop} (free : HostFree m m')
    (holds : ∀ a h h', P h h' → Q a a h h') (fails : ∀ h h', P h h' → E h h') :
    Simulates excuses P m m' Q E := by
  intro s s' source related
  have concurs := free s s' source
  generalize m s = r at concurs
  generalize m' s' = r' at concurs
  cases concurs with
  | ok a source trace trace' => exact .ok ⟨rfl, holds a _ _ related⟩
  | error e source trace trace' => exact .error ⟨rfl, fails _ _ related⟩

theorem hosted {call : HostM σ α} {call' : HostM σ' α'}
    (answers : ∀ h h', P h h' → InStep excuses Q E (call h) (call' h')) :
    Simulates excuses P (hosted call) (hosted call') Q E := by
  intro s s' source related
  have in_step := answers _ _ related
  rw [hosted_apply, hosted_apply]
  generalize call s.host = r at in_step
  generalize call' s'.host = r' at in_step
  cases in_step with
  | ok holds => exact .ok ⟨source, holds⟩
  | error holds => exact .error ⟨source, holds⟩
  | excused excused => exact .excused excused

end Simulates

end ReadM

theorem Context.fail_simulates {excuses : Failure → Prop} {P E : σ → σ' → Prop}
    {Q : α → α' → σ → σ' → Prop} {ctx : Context σ V} {ctx' : Context σ' V'} (fault : ReadFault)
    (signals : ∀ e, Simulates excuses P (hosted (ctx.host.signalError e))
      (hosted (ctx'.host.signalError e)) (fun _ _ => E) E) :
    Simulates excuses P (ctx.fail fault : ReadM σ α) (ctx'.fail fault : ReadM σ' α') Q E := by
  intro s s' same related
  have ends (e : ReadError) : Simulates excuses P
      (hosted (ctx.host.signalError e) >>= fun _ => throw (.reading e) : ReadM σ α)
      (hosted (ctx'.host.signalError e) >>= fun _ => throw (.reading e) : ReadM σ' α') Q E :=
    .bind (signals e) fun _ _ => .throw fun _ _ holds => holds
  obtain ⟨host, source, trace⟩ := s
  obtain ⟨host', _, trace'⟩ := s'
  cases same
  exact ends ⟨fault, source.line?, source.column?, source.name⟩ ⟨host, source, trace.push _⟩
    ⟨host', source, trace'.push _⟩ rfl related

end SexprReader

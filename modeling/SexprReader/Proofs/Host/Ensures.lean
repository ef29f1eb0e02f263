import SexprReader.Proofs.Host.Asking
import SexprReader.Proofs.Reader.Lexical

namespace SexprReader

open ReadM

variable {σ σ' V α β : Type}

def HostM.Keeps (P : σ → Prop) (work : HostM σ α) : Prop :=
  ∀ h, P h → match work h with
    | .ok _ h' => P h'
    | .error _ h' => P h'

theorem HostM.Keeps.map {P : σ → Prop} {work : HostM σ α} {f : α → β} :
    Keeps P (f <$> work) ↔ Keeps P work := by
  refine forall_congr' fun h => imp_congr_right fun _ => ?_
  cases ran : work h with
  | ok a h' => rw [HostM.map_of_ok ran]
  | error e h' => rw [HostM.map_of_error ran]

namespace ReadM

def Ensures (P : σ → Prop) (m : ReadM σ α) (Q : α → σ → Prop) (E : σ → Prop) : Prop :=
  ∀ s, P s.host → match m s with
    | .ok a s' => Q a s'.host
    | .error _ s' => E s'.host

namespace Ensures

variable {P P' : σ → Prop} {Q : α → σ → Prop} {R : β → σ → Prop} {E : σ → Prop}

theorem pure {a : α} (holds : ∀ h, P h → Q a h) : Ensures P (pure a : ReadM σ α) Q E :=
  fun s given => holds s.host given

theorem throw {e : Failure} (fails : ∀ h, P h → E h) : Ensures P (throw e : ReadM σ α) Q E :=
  fun s given => fails s.host given

theorem bind {m : ReadM σ α} {f : α → ReadM σ β} (first : Ensures P m Q E)
    (next : ∀ a, Ensures (Q a) (f a) R E) : Ensures P (m >>= f) R E := by
  intro s given
  have holds := first s given
  cases result : m s with
  | ok a s' =>
    rw [result] at holds
    rw [bind_of_ok result]
    exact next a s' holds
  | error e s' =>
    rw [result] at holds
    rw [bind_of_error result]
    exact holds

theorem of_imp {m : ReadM σ α} (implies : ∀ h, P h → P' h) (ensures : Ensures P' m Q E) :
    Ensures P m Q E :=
  fun s given => ensures s (implies s.host given)

theorem of_fact {m : ReadM σ α} {fact : Prop} (known : ∀ h, P h → fact)
    (ensures : fact → Ensures P m Q E) : Ensures P m Q E :=
  fun s given => ensures (known s.host given) s given

theorem ite {condition : Prop} [Decidable condition] {m m' : ReadM σ α} (yes : Ensures P m Q E)
    (no : Ensures P m' Q E) : Ensures P (if condition then m else m') Q E := by
  split
  · exact yes
  · exact no

theorem hostFree {m : ReadM σ α} (free : HostFree m m) (holds : ∀ a h, P h → Q a h)
    (fails : ∀ h, P h → E h) : Ensures P m Q E := by
  intro s given
  have same := free.host_eq s
  cases result : m s with
  | ok a s' =>
    rw [result] at same
    exact holds a _ (same ▸ given)
  | error e s' =>
    rw [result] at same
    exact fails _ (same ▸ given)

theorem hosted {work : HostM σ α} (answers : ∀ h, P h → match work h with
    | .ok a h' => Q a h'
    | .error _ h' => E h') : Ensures P (hosted work) Q E := by
  intro s given
  have holds := answers s.host given
  rw [hosted_apply]
  cases result : work s.host with
  | ok a h =>
    rw [result] at holds
    exact holds
  | error e h =>
    rw [result] at holds
    exact holds

theorem fail {ctx : Context σ V} {fault : ReadFault}
    (signals : ∀ e : ReadError, e.fault = fault → (ctx.host.signalError e).Keeps E) :
    Ensures E (ctx.fail fault : ReadM σ α) Q E := by
  intro s given
  let e : ReadError := ⟨fault, s.source.line?, s.source.column?, s.source.name⟩
  have ends : Ensures E (ReadM.report (.failed e) >>= fun _ =>
      ReadM.hosted (ctx.host.signalError e) >>= fun _ => MonadExcept.throw (.reading e) : ReadM σ α) Q E :=
    .bind (.hostFree (.report _) (fun _ _ kept => kept) fun _ kept => kept) fun _ =>
      .bind (.hosted (signals e rfl)) fun _ => .throw fun _ kept => kept
  exact ends s given

theorem fails (ctx : Context σ V) (fault : ReadFault) :
    Ensures P (ctx.fail fault : ReadM σ α) Q fun _ => True := by
  refine .of_imp (fun _ _ => trivial) (.fail fun e _ host _ => ?_)
  cases ctx.host.signalError e host <;> trivial

theorem of_yields {m : ReadM σ α} {known : α → Prop} (yields : Yields m known) (ensures : Ensures P m Q E) :
    Ensures P m (fun a h => known a ∧ Q a h) E := by
  intro s given
  have holds := ensures s given
  cases result : m s with
  | ok a s' =>
    rw [result] at holds
    exact ⟨yields result, holds⟩
  | error e s' =>
    rw [result] at holds
    exact holds

theorem of_asks {asked : Call V → Prop} {ctx : Context σ V} {ctx' : Context σ' V} {m : ReadM σ α}
    {m' : ReadM σ' α} (asks : Asks asked ctx ctx' m m')
    (keeps : ∀ call, asked call → (ctx.host.call call).Keeps P) : Ensures P m (fun _ => P) P := by
  induction asks with
  | done a => exact .pure fun _ given => given
  | fail asks => exact .fail fun e same => HostM.Keeps.map.mp (keeps _ (asks e same))
  | report event _ ih =>
    exact .bind (.hostFree (.report event) (fun _ _ given => given) fun _ given => given) fun _ => ih
  | call call result _ asks _ makes _ _ ih =>
    have kept := keeps call asks
    rw [makes] at kept
    exact .bind (.hosted (HostM.Keeps.map.mp kept)) ih

end Ensures

end ReadM

end SexprReader

import Depot.World
import Mathlib.Order.Defs.Unbundled

/-!
# Calls and results of procedures

* `World.calls` are the calls that a procedure makes when it runs in a world, in order.
* `Procedure.Confined P Q p`: in every world, each call of `p` satisfies `P` and its result
  satisfies `Q`. `Action.Confined` says the same of an action, `Q` being about what it gives when it
  does not fail. Both follow the way in which procedures are put together, a rule for each.
* `Procedure.Moves R p`: in every world, `R` relates it to the world after `p`, whatever its result;
  `Action.Moves` says the same of an action. The rules ask of `R` to be a preorder.
* `World.perform_bind_eq_ok` takes a successful run of two actions in a row apart.
-/

namespace Depot

@[simp] theorem mapError_eq_ok {ε ε' α : Type} {x : Except ε α} {f : ε → ε'} {a : α} :
    x.mapError f = .ok a ↔ x = .ok a := by
  cases x with
  | error e => exact iff_of_false nofun nofun
  | ok b =>
    constructor
    · exact fun h => congrArg Except.ok (Except.ok.inj h)
    · exact fun h => congrArg Except.ok (Except.ok.inj h)

/-! ## Calls -/

namespace Procedure

variable {α β σ : Type}

/-- The calls that a run makes. -/
def calls (answer : (c : Call) → σ → c.Reply × σ) : Procedure α → σ → List Call
  | .done _, _ => []
  | .ask c next, s => c :: (next (answer c s).1).calls answer (answer c s).2

theorem calls_bind (answer : (c : Call) → σ → c.Reply × σ) (p : Procedure α)
    (f : α → Procedure β) (s : σ) :
    (p.bind f).calls answer s
      = p.calls answer s ++ (f (p.run answer s).1).calls answer (p.run answer s).2 := by
  induction p generalizing s with
  | done a => rfl
  | ask c next ih => simp [bind, calls, run, ih]

end Procedure

namespace World

variable {α β : Type}

/-- The calls that a procedure makes in a world. -/
def calls (w : World) (p : Procedure α) : List Call :=
  p.calls answer w

@[simp] theorem perform_done (w : World) (a : α) : w.perform (.done a) = (a, w) := rfl

@[simp] theorem calls_done (w : World) (a : α) : w.calls (.done a) = [] := rfl

@[simp] theorem perform_ofCall (w : World) (c : Call) :
    w.perform (.ofCall c) = answer c w := rfl

@[simp] theorem calls_ofCall (w : World) (c : Call) : w.calls (.ofCall c) = [c] := rfl

@[simp] theorem perform_bind (w : World) (p : Procedure α) (f : α → Procedure β) :
    w.perform (p.bind f) = (w.perform p).2.perform (f (w.perform p).1) :=
  p.run_bind answer f w

@[simp] theorem calls_bind (w : World) (p : Procedure α) (f : α → Procedure β) :
    w.calls (p.bind f) = w.calls p ++ (w.perform p).2.calls (f (w.perform p).1) :=
  p.calls_bind answer f w

end World

theorem Action.run_bind {α β : Type} (x : Action α) (f : α → Action β) :
    (x >>= f).run = x.run.bind fun
      | .ok a => (f a).run
      | .error e => .done (.error e) := by
  refine congrArg (Procedure.bind x.run) (funext fun r => ?_)
  cases r <;> rfl

theorem World.calls_bind_action {α β : Type} (w : World) (x : Action α) (f : α → Action β) :
    w.calls (x >>= f).run = w.calls x.run ++ match (w.perform x.run).1 with
      | .ok a => (w.perform x.run).2.calls (f a).run
      | .error _ => [] := by
  rw [Action.run_bind, calls_bind]
  cases (w.perform x.run).1 <;> rfl

/-- Two actions in a row succeed just if the first does and then the second, where the first left
off. -/
theorem World.perform_bind_eq_ok {α β : Type} {w w' : World} {x : Action α} {f : α → Action β}
    {b : β} :
    w.perform (x >>= f).run = (.ok b, w') ↔
      ∃ a w₁, w.perform x.run = (.ok a, w₁) ∧ w₁.perform (f a).run = (.ok b, w') := by
  rw [Action.run_bind, perform_bind]
  rcases w.perform x.run with ⟨a | e, w₁⟩
  · simp
  · constructor
    · exact fun h => ⟨_, _, rfl, h⟩
    · rintro ⟨a, w₂, h, h'⟩
      cases h
      exact h'

/-- Two actions in a row fail just if the first does, or else the second, where the first left
off. -/
theorem World.perform_bind_eq_error {α β : Type} {w w' : World} {x : Action α} {f : α → Action β}
    {e : StorageError} :
    w.perform (x >>= f).run = (.error e, w') ↔
      w.perform x.run = (.error e, w') ∨
        ∃ a w₁, w.perform x.run = (.ok a, w₁) ∧ w₁.perform (f a).run = (.error e, w') := by
  rw [Action.run_bind, perform_bind]
  rcases w.perform x.run with ⟨e' | a, w₁⟩
  · constructor
    · intro h
      cases h
      exact .inl rfl
    · rintro (h | ⟨a, w₂, h, -⟩)
      · cases h
        rfl
      · cases h
  · constructor
    · exact fun h => .inr ⟨a, w₁, rfl, h⟩
    · rintro (h | ⟨b, w₂, h, h'⟩)
      · cases h
      · cases h
        exact h'

/-- After an action that succeeds the next one goes on where it left off. -/
theorem World.perform_bind_of_ok {α β : Type} {w w₁ : World} {x : Action α} {f : α → Action β}
    {a : α} (h : w.perform x.run = (.ok a, w₁)) :
    w.perform (x >>= f).run = w₁.perform (f a).run := by
  rw [Action.run_bind, perform_bind, h]

/-- The world after two actions in a row is that after the first if it fails. -/
theorem World.perform_bind_cases {α β : Type} {w : World} {x : Action α} {f : α → Action β}
    {motive : World → Prop}
    (herror : ∀ e w₁, w.perform x.run = (.error e, w₁) → motive w₁)
    (hok : ∀ a w₁, w.perform x.run = (.ok a, w₁) → motive (w₁.perform (f a).run).2) :
    motive (w.perform (x >>= f).run).2 := by
  rw [Action.run_bind, perform_bind]
  rcases h : w.perform x.run with ⟨e | a, w₁⟩
  · exact herror e w₁ h
  · exact hok a w₁ h

/-- The second of two actions in a row runs if the first succeeds. -/
theorem World.perform_bind_action {α β : Type} (w : World) (x : Action α) (f : α → Action β) :
    w.perform (x >>= f).run = match w.perform x.run with
      | (.ok a, w₁) => w₁.perform (f a).run
      | (.error e, w₁) => (.error e, w₁) := by
  rw [Action.run_bind, perform_bind]
  rcases w.perform x.run with ⟨e | a, w₁⟩ <;> rfl

theorem World.perform_ofReply {ε α : Type} (w : World) (fail : ε → StorageError)
    (p : Procedure (Except ε α)) : w.perform (Action.ofReply fail p).run
      = ((w.perform p).1.mapError fail, (w.perform p).2) :=
  perform_bind w p _

theorem World.perform_ofReply_eq_ok {ε α : Type} {w w' : World} {fail : ε → StorageError}
    {p : Procedure (Except ε α)} {a : α} :
    w.perform (Action.ofReply fail p).run = (.ok a, w') ↔ w.perform p = (.ok a, w') := by
  change w.perform (p.bind fun r => .done (r.mapError fail)) = _ ↔ _
  rw [perform_bind]
  simp [Prod.ext_iff]

theorem World.perform_concluding {α : Type} (w : World) (c : Call)
    (f : c.Reply → Except StorageError α) :
    w.perform (Action.concluding c f).run = (f (answer c w).1, (answer c w).2) := rfl

theorem World.calls_concluding {α : Type} (w : World) (c : Call)
    (f : c.Reply → Except StorageError α) : w.calls (Action.concluding c f).run = [c] := rfl

theorem World.perform_ofProcedure {α : Type} (w : World) (p : Procedure α) :
    w.perform (Action.ofProcedure p).run = (.ok (w.perform p).1, (w.perform p).2) :=
  perform_bind w p _

theorem World.perform_check_eq_ok {α : Type} {w w' : World} {r : Except StorageError α} {a : α} :
    w.perform (Action.check r).run = (.ok a, w') ↔ r = .ok a ∧ w = w' :=
  Prod.mk.injEq .. ▸ .rfl

theorem World.perform_checkResource {r : Resource} (hr : r.check = .ok ()) (w : World) :
    w.perform (Action.checkResource r).run = (.ok (), w) := by
  rw [Action.checkResource, hr]
  rfl

theorem World.perform_checkKey {r : Resource} {path key : String} (hk : r.fileKey path = .ok key)
    (w : World) : w.perform (Action.check ((r.fileKey path).mapError StorageError.invalid)).run
      = (.ok key, w) := by
  rw [hk]
  rfl

/-! ## Answers -/

theorem World.perform_openFile {α : Type} (w : World) (p : Path)
    (g : Except IoKind Handle → Procedure α) :
    w.perform (Procedure.ofCall (.openFile p) >>= g) = w.perform (g (w.volume.openFile p)) := rfl

theorem World.answer_remove (w : World) (p : Path) :
    answer (.remove p) w = w.changing (w.volume.remove p) := rfl

theorem World.left_eq_ok {w w' : World} {r : Except IoKind Unit × Volume} :
    w.left r = (.ok (), w') ↔ ∃ v, r = (.ok (), v) ∧ { w with volume := v } = w' := by
  obtain ⟨result, v⟩ := r
  simp [left, and_assoc]

theorem World.answer_create_eq_ok {w w' : World} {p : Path} {h : Handle} :
    answer (.create p) w = (.ok h, w') ↔
      ∃ v, w.volume.create p = .ok (h, v) ∧ { w with volume := v } = w' := by
  rw [answer]
  rcases w.volume.create p with k | ⟨h', v⟩ <;> simp [and_assoc]

theorem World.volume_create (w : World) (p : Path) : (answer (.create p) w).2.volume
    = match w.volume.create p with
      | .ok (_, v) => v
      | .error _ => w.volume := by
  rw [answer]
  rcases w.volume.create p with k | ⟨h, v⟩ <;> rfl

theorem World.volume_changing (w : World) (r : Except IoKind Volume) : (w.changing r).2.volume
    = match r with
      | .ok v => v
      | .error _ => w.volume := by
  cases r <;> rfl

/-! ## Confined procedures -/

/-- In every world, each call of a procedure satisfies `P` and its result satisfies `Q`. -/
def Procedure.Confined {α : Type} (P : Call → Prop) (Q : α → Prop) (p : Procedure α) : Prop :=
  ∀ w : World, (∀ c ∈ w.calls p, P c) ∧ Q (w.perform p).1

/-- In every world, each call of an action satisfies `P`, and `Q` holds of what it gives if it does
not fail. -/
def Action.Confined {α : Type} (P : Call → Prop) (Q : α → Prop) (x : Action α) : Prop :=
  x.run.Confined P fun r => ∀ a, r = .ok a → Q a

variable {α β : Type} {P : Call → Prop} {Q Q' : α → Prop} {R : β → Prop}

namespace Procedure.Confined

theorem done {a : α} (h : Q a) : Confined P Q (.done a) :=
  fun _ => ⟨by simp, h⟩

theorem bind {p : Procedure α} {f : α → Procedure β} (hp : p.Confined P Q)
    (hf : ∀ a, Q a → (f a).Confined P R) : (p.bind f).Confined P R := by
  intro w
  have h := hf _ (hp w).2 (w.perform p).2
  rw [World.calls_bind, World.perform_bind]
  exact ⟨fun c hc => (List.mem_append.mp hc).elim ((hp w).1 c) (h.1 c), h.2⟩

theorem ofCall {c : Call} (h : P c) {Q : c.Reply → Prop} (hQ : ∀ w, Q (World.answer c w).1) :
    Confined P Q (ofCall c) :=
  fun w => ⟨by simpa using h, hQ w⟩

theorem call {c : Call} (h : P c) : Confined P (fun _ => True) (Procedure.ofCall c) :=
  ofCall h fun _ => trivial

theorem mono {p : Procedure α} (h : p.Confined P Q) (hQ : ∀ a, Q a → Q' a) : p.Confined P Q' :=
  fun w => ⟨(h w).1, hQ _ (h w).2⟩

end Procedure.Confined

namespace Action.Confined

theorem pure {a : α} (h : Q a) : Confined P Q (pure a : Action α) :=
  Procedure.Confined.done fun _ hb => Except.ok.inj hb ▸ h

theorem throw {e : StorageError} : Confined P Q (throw e : Action α) :=
  Procedure.Confined.done fun _ hb => absurd hb (by simp)

theorem bind {x : Action α} {f : α → Action β} (hx : x.Confined P Q)
    (hf : ∀ a, Q a → (f a).Confined P R) : (x >>= f).Confined P R := by
  unfold Confined
  rw [run_bind]
  refine Procedure.Confined.bind hx fun r hr => ?_
  cases r with
  | ok a => exact hf a (hr a rfl)
  | error e => exact .done fun _ hb => absurd hb (by simp)

theorem ofReply {ε : Type} {fail : ε → StorageError} {p : Procedure (Except ε α)}
    (h : p.Confined P fun r => ∀ a, r = .ok a → Q a) : (ofReply fail p).Confined P Q :=
  Procedure.Confined.bind h fun _ hr => .done fun a ha => hr a (mapError_eq_ok.mp ha)

/-- Where nothing is said of what the action gives. -/
theorem reply {ε : Type} {fail : ε → StorageError} {p : Procedure (Except ε α)}
    (h : p.Confined P fun _ => True) : (Action.ofReply fail p).Confined P fun _ => True :=
  ofReply (h.mono fun _ _ _ _ => trivial)

theorem concluding {c : Call} {f : c.Reply → Except StorageError α} (h : P c) :
    (concluding c f).Confined P fun _ => True :=
  Procedure.Confined.bind (.call h) fun _ _ => .done fun _ _ => trivial

theorem check {r : Except StorageError α} (h : ∀ a, r = .ok a → Q a) : (check r).Confined P Q :=
  .done h

theorem ofProcedure {p : Procedure α} (h : p.Confined P Q) : (ofProcedure p).Confined P Q :=
  Procedure.Confined.bind h fun _ ha => .done fun _ hb => Except.ok.inj hb ▸ ha

theorem tryCatch {x : Action α} {handler : StorageError → Action α} (hx : x.Confined P Q)
    (hh : ∀ e, (handler e).Confined P Q) : (tryCatch x handler).Confined P Q := by
  refine Procedure.Confined.bind hx fun r hr => ?_
  cases r with
  | ok a => exact .done hr
  | error e => exact hh e

end Action.Confined

/-! ## What procedures do to a world -/

/-- In every world, the world after a procedure is related to it. -/
def Procedure.Moves {α : Type} (R : World → World → Prop) (p : Procedure α) : Prop :=
  ∀ w : World, R w (w.perform p).2

/-- In every world, the world after an action is related to it. -/
def Action.Moves {α : Type} (R : World → World → Prop) (x : Action α) : Prop :=
  x.run.Moves R

section Moves

variable {R : World → World → Prop}

theorem Procedure.Moves.call {c : Call} (h : ∀ w, R w (World.answer c w).2) :
    Moves R (Procedure.ofCall c) := h

variable [IsPreorder World R]

namespace Procedure.Moves

theorem done (a : α) : Moves R (.done a) := fun w => Std.Refl.refl w

theorem bind {p : Procedure α} {f : α → Procedure β} (hp : p.Moves R) (hf : ∀ a, (f a).Moves R) :
    (p.bind f).Moves R := by
  intro w
  rw [World.perform_bind]
  exact IsTrans.trans _ _ _ (hp w) (hf _ _)

end Procedure.Moves

namespace Action.Moves

theorem pure (a : α) : Moves R (pure a : Action α) :=
  Procedure.Moves.done _

theorem throw (e : StorageError) : Moves R (throw e : Action α) :=
  Procedure.Moves.done _

theorem bind {x : Action α} {f : α → Action β} (hx : x.Moves R) (hf : ∀ a, (f a).Moves R) :
    (x >>= f).Moves R := by
  unfold Moves
  rw [run_bind]
  refine Procedure.Moves.bind hx fun r => ?_
  cases r with
  | ok a => exact hf a
  | error e => exact .done _

theorem ofReply {ε : Type} {fail : ε → StorageError} {p : Procedure (Except ε α)} (h : p.Moves R) :
    (ofReply fail p).Moves R :=
  Procedure.Moves.bind h fun _ => .done _

theorem concluding {c : Call} (f : c.Reply → Except StorageError α)
    (h : ∀ w, R w (World.answer c w).2) : (concluding c f).Moves R :=
  Procedure.Moves.bind (.call h) fun _ => .done _

theorem check (r : Except StorageError α) : (check r).Moves R :=
  Procedure.Moves.done _

end Action.Moves

end Moves

end Depot

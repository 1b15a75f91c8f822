/-
  Manticore.CfgOpt.ImplementCallsProofs — the types, the entries and the calls agree.

  The loop splits the arguments by their register classes alone (`kfncArgs_eq`), so the translation of a type,
  the entry of a function of that type and a call with such arguments keep and spill the same positions.
  Of one call: the variables it passes have the types of the translated callee, no more of them than there are
  registers, and unpacking at the entry gives each parameter the value of its argument (`call_agrees`).
-/

import Manticore.CfgOpt.ImplementCalls

namespace Manticore.Cfg.ImplementCalls

open List (mapM_cons cons_append map_cons map_map map_append map_congr_left mem_append_left map_singleton
  mem_singleton length map_nil)
open Function (update update_of_ne comp)

/-! ## The split of the arguments -/

section Split

variable {m : Type → Type} [Monad m] [LawfulMonad m] {α β : Type}

/-- The arguments that are kept, and those that are spilled, each in order. -/
def split (ty : α → Ty) : List α → Int → Int → List α × List α
  | [], _, _ => ([], [])
  | arg :: args, gprs, fprs =>
    let r := regsTyNonUniformArg (ty arg)
    if r.gprs > gprs ∨ r.fprs > fprs then
      ((split ty args gprs fprs).1, arg :: (split ty args gprs fprs).2)
    else
      (arg :: (split ty args (gprs - r.gprs) (fprs - r.fprs)).1, (split ty args (gprs - r.gprs) (fprs - r.fprs)).2)

/-- What is made of the arguments that are spilled, behind those that are kept. -/
def spilled (spill : List α → m β) : List α → m (List β)
  | [] => pure []
  | args => do return [← spill args]

theorem loop_eq (ty : α → Ty) (keep : α → m β) (spill : List α → m β) (args : List α) (gprs fprs : Int)
    (spills : List α) : loop ty keep spill args gprs fprs spills = do
      let ks ← (split ty args gprs fprs).1.mapM keep
      let ss ← spilled spill (spills.reverse ++ (split ty args gprs fprs).2)
      return ks ++ ss := by
  induction args generalizing gprs fprs spills with
  | nil =>
    cases spills with
    | nil => simp [loop, split, spilled]
    | cons a as =>
      have hne : (a :: as).reverse ≠ [] := by simp
      simp only [loop, split, List.mapM_nil, List.append_nil, pure_bind, List.nil_append]
      cases hr : (a :: as).reverse with
      | nil => exact absurd hr hne
      | cons b bs => simp [spilled]
  | cons arg args ih =>
    rw [loop, split]
    by_cases h : ((regsTyNonUniformArg (ty arg)).gprs : Int) > gprs ∨ ((regsTyNonUniformArg (ty arg)).fprs : Int) > fprs
    · simp only [if_pos h, ih, List.reverse_cons, List.append_assoc, List.singleton_append]
    · simp only [if_neg h, ih, mapM_cons, bind_assoc, pure_bind, cons_append]

/-- The split for the limits of a target. -/
def layout (T : TargetSpec) (ty : α → Ty) (args : List α) : List α × List α :=
  let r := regsTyNonUniformArgs (args.map ty)
  split ty args (if (r.gprs : Int) > T.maxGPRArgs - 1 ∨ (r.fprs : Int) > T.maxFPRArgs then (T.maxGPRArgs : Int) - 1 - 1
    else (T.maxGPRArgs : Int) - 1) T.maxFPRArgs

theorem kfncArgs_eq (T : TargetSpec) (ty : α → Ty) (keep : α → m β) (spill : List α → m β) (args : List α) :
    kfncArgs T ty keep spill args = do
      let ks ← (layout T ty args).1.mapM keep
      let ss ← spilled spill (layout T ty args).2
      return ks ++ ss := by
  rw [kfncArgs, loop_eq]
  rfl

theorem split_perm (ty : α → Ty) (args : List α) (gprs fprs : Int) :
    ((split ty args gprs fprs).1 ++ (split ty args gprs fprs).2).Perm args := by
  induction args generalizing gprs fprs with
  | nil => exact .nil
  | cons arg args ih =>
    rw [split]
    by_cases h : ((regsTyNonUniformArg (ty arg)).gprs : Int) > gprs ∨ ((regsTyNonUniformArg (ty arg)).fprs : Int) > fprs
    · simp only [if_pos h]
      exact List.perm_middle.trans ((ih gprs fprs).cons arg)
    · simp only [if_neg h, cons_append]
      exact (ih _ _).cons arg

theorem split_map {γ : Type} (f : γ → α) (ty : α → Ty) (args : List γ) (gprs fprs : Int) :
    split ty (args.map f) gprs fprs =
      ((split (fun a => ty (f a)) args gprs fprs).1.map f, (split (fun a => ty (f a)) args gprs fprs).2.map f) := by
  induction args generalizing gprs fprs with
  | nil => rfl
  | cons arg args ih =>
    rw [map_cons, split, split]
    by_cases h : ((regsTyNonUniformArg (ty (f arg))).gprs : Int) > gprs ∨
        ((regsTyNonUniformArg (ty (f arg))).fprs : Int) > fprs
    · simp only [if_pos h, ih, map_cons]
    · simp only [if_neg h, ih, map_cons]

theorem layout_map {γ : Type} (T : TargetSpec) (f : γ → α) (ty : α → Ty) (args : List γ) : layout T ty (args.map f) =
    ((layout T (fun a => ty (f a)) args).1.map f, (layout T (fun a => ty (f a)) args).2.map f) := by
  have hmap : (args.map f).map ty = args.map fun a => ty (f a) := by rw [map_map]; rfl
  rw [layout, layout, hmap]
  exact split_map f ty args _ _

theorem split_congr {ty ty' : α → Ty} {args : List α}
    (h : ∀ a ∈ args, regsTyNonUniformArg (ty a) = regsTyNonUniformArg (ty' a)) (gprs fprs : Int) :
    split ty args gprs fprs = split ty' args gprs fprs := by
  induction args generalizing gprs fprs with
  | nil => rfl
  | cons arg args ih =>
    have ih' := ih fun a ha => h a (List.mem_cons_of_mem _ ha)
    simp only [split, h arg List.mem_cons_self, ih']

theorem regs_cons (ty : Ty) (tys : List Ty) : regsTyNonUniformArgs (ty :: tys) =
    ⟨(regsTyNonUniformArg ty).gprs + (regsTyNonUniformArgs tys).gprs,
      (regsTyNonUniformArg ty).fprs + (regsTyNonUniformArgs tys).fprs⟩ := by
  have shift : ∀ (tys : List Ty) (r : Regs), tys.foldl (fun r arg => (⟨r.gprs + (regsTyNonUniformArg arg).gprs,
      r.fprs + (regsTyNonUniformArg arg).fprs⟩ : Regs)) r =
      ⟨r.gprs + (regsTyNonUniformArgs tys).gprs, r.fprs + (regsTyNonUniformArgs tys).fprs⟩ := by
    intro tys
    induction tys with
    | nil => intro r; rfl
    | cons t tys ih =>
      grind [regsTyNonUniformArgs, Regs.mk.injEq]
  rw [regsTyNonUniformArgs, List.foldl_cons, shift]
  simp only [Regs.mk.injEq]
  omega

/-- With room for all, nothing is spilled. -/
theorem split_fits (ty : α → Ty) (args : List α) {gprs fprs : Int}
    (hg : (regsTyNonUniformArgs (args.map ty)).gprs ≤ gprs) (hf : (regsTyNonUniformArgs (args.map ty)).fprs ≤ fprs) :
    split ty args gprs fprs = (args, []) := by
  induction args generalizing gprs fprs with
  | nil => rfl
  | cons arg args ih =>
    rw [map_cons, regs_cons] at hg hf
    simp only at hg hf
    rw [split, if_neg (by omega), ih (by omega) (by omega)]

/-- What is kept fits into the registers. -/
theorem split_le (ty : α → Ty) (args : List α) {gprs fprs : Int} (hg : 0 ≤ gprs) (hf : 0 ≤ fprs) :
    (regsTyNonUniformArgs ((split ty args gprs fprs).1.map ty)).gprs ≤ gprs ∧
      (regsTyNonUniformArgs ((split ty args gprs fprs).1.map ty)).fprs ≤ fprs := by
  induction args generalizing gprs fprs with
  | nil => exact ⟨hg, hf⟩
  | cons arg args ih =>
    rw [split]
    by_cases h : ((regsTyNonUniformArg (ty arg)).gprs : Int) > gprs ∨ ((regsTyNonUniformArg (ty arg)).fprs : Int) > fprs
    · simp only [if_pos h]
      exact ih hg hf
    · simp only [if_neg h, map_cons, regs_cons]
      grind

end Split

/-! ## Register classes -/

/-- The raw type of a type. -/
def rawTy : Ty → Option RawTy
  | .raw rt => some rt
  | _ => none

/-- Types of one representation: `CFGTyUtil.match` relates a raw type to itself only. -/
def SameRaw (ty ty' : Ty) : Prop := rawTy ty = rawTy ty'

theorem regs_of_sameRaw {ty ty' : Ty} (h : SameRaw ty ty') : regsTyNonUniformArg ty = regsTyNonUniformArg ty' := by
  have regs : ∀ t, regsTyNonUniformArg t = match rawTy t with
      | some rt => regsTyNonUniformArg (.raw rt)
      | none => ⟨1, 0⟩ := by
    intro t
    cases t <;> rfl
  rw [regs ty, regs ty', h]

theorem transArgs_eq (T : TargetSpec) (tys : List Ty) : transArgs T tys = tys.map fun ty => ⟨ty, transTy T ty⟩ := by
  induction tys with
  | nil => rfl
  | cons ty tys ih => rw [transArgs, ih, map_cons]

theorem rawTy_transTy (T : TargetSpec) (ty : Ty) : rawTy (transTy T ty) = rawTy ty := by
  cases ty <;> simp only [transTy, rawTy]

/-- An argument by itself takes the registers it took before. -/
theorem regs_transTyNonUniformArg (T : TargetSpec) (ty : Ty) :
    regsTyNonUniformArg (transTyNonUniformArg ⟨ty, transTy T ty⟩) = regsTyNonUniformArg ty := by
  cases ty with
  | raw rt => cases rt <;> rfl
  | _ => exact regs_of_sameRaw (rawTy_transTy T _)

/-- Arguments together take one general-purpose register. -/
theorem regs_transTyStdArgs (T : TargetSpec) (tys : List Ty) :
    regsTyNonUniformArg (transTyStdArgs (transArgs T tys)) = ⟨1, 0⟩ := by
  match tys with
  | [] => rfl
  | [ty] =>
    cases ty with
    | raw rt => rfl
    | _ => exact @regs_of_sameRaw _ .any (rawTy_transTy T _)
  | _ :: _ :: _ => rfl

/-- The translated argument types. -/
def transTyArgs (T : TargetSpec) : Passing → List Ty → List Ty
  | .std, tys => [transTyStdArgs (transArgs T tys)]
  | .known, tys => transTyKFncArgs T (transArgs T tys)

/-- What a translated function takes. -/
theorem callee_transTy (T : TargetSpec) {ty : Ty} {p : Passing} {tys : List Ty} (h : ty.callee = some (p, tys)) :
    (transTy T ty).callee = some (p, transTyArgs T p tys) := by
  cases ty with
  | stdFun | stdCont | knownFunc =>
    obtain ⟨rfl, rfl⟩ := Prod.mk.inj (Option.some.inj h)
    simp only [transTy, Ty.callee, transTyArgs]
  | _ => cases h

/-- The types of the arguments that are spilled together. -/
def spilledTys (T : TargetSpec) : List Ty → List Ty
  | [] => []
  | tys => [transTyStdArgs (transArgs T tys)]

attribute [local simp] spilled spilledTys

theorem transTyKFncArgs_eq (T : TargetSpec) {α : Type} (ty : α → Ty) (args : List α) :
    transTyKFncArgs T (transArgs T (args.map ty)) =
      (layout T ty args).1.map (fun a => transTyNonUniformArg ⟨ty a, transTy T (ty a)⟩) ++
        spilledTys T ((layout T ty args).2.map ty) := by
  have harg : transArgs T (args.map ty) = args.map fun a => ⟨ty a, transTy T (ty a)⟩ := by
    rw [transArgs_eq, map_map]
    rfl
  have hspill : ∀ tys : List Ty, spilled (m := Id) (fun args => pure (transTyStdArgs args)) (transArgs T tys) =
      pure (spilledTys T tys) := by
    intro tys
    cases tys <;> rfl
  have hrest : ((layout T (fun a => ty a) args).2.map fun a => (⟨ty a, transTy T (ty a)⟩ : TransTy)) =
      transArgs T ((layout T ty args).2.map ty) := by
    rw [transArgs_eq, map_map]
    rfl
  rw [transTyKFncArgs, kfncArgs_eq, harg, layout_map]
  simp only [List.mapM_pure, pure_bind, hrest, hspill, Id.run_pure, map_map]
  rfl

/-! ## The code of a call -/

/-- One step of a computation with types. -/
theorem run_bind {α β : Type} {x : StateM Types α} {f : α → StateM Types β} {s s' : Types} {a : α}
    (h : x s = (a, s')) : (x >>= f) s = f a s' := by
  show (match x s with | (a, s') => f a s') = _
  rw [h]

/-- Later types: the variables so far keep theirs. -/
def Types.Le (s s' : Types) : Prop := s.next ≤ s'.next ∧ ∀ x : Var, x.stamp < s.next → s'.typeOf x = s.typeOf x

theorem Types.Le.refl (s : Types) : s.Le s := ⟨Nat.le_refl _, fun _ _ => rfl⟩

theorem Types.Le.trans {s₁ s₂ s₃ : Types} (h : s₁.Le s₂) (h' : s₂.Le s₃) : s₁.Le s₃ := by
  refine ⟨Nat.le_trans h.1 h'.1, ?_⟩
  intro x hx
  rw [h'.2 x (Nat.lt_of_lt_of_le hx h.1), h.2 x hx]

/-- The types once a variable has been added. -/
def Types.add (s : Types) (ty : Ty) : Types := ⟨s.next + 1, update s.typeOf ⟨s.next⟩ ty⟩

theorem Types.le_add (s : Types) (ty : Ty) : s.Le (s.add ty) := by
  refine ⟨Nat.le_succ _, ?_⟩
  intro x hx
  refine update_of_ne ?_ _ _
  intro e
  subst e
  exact Nat.lt_irrefl _ hx

theorem Types.typeOf_add (s : Types) (ty : Ty) : (s.add ty).typeOf ⟨s.next⟩ = ty := Function.update_self _ _ _

/-- A variable that is not fresh. -/
theorem ne_fresh {s : Types} {x : Var} (hx : x.stamp < s.next) : x ≠ ⟨s.next⟩ := by
  intro e
  subst e
  exact Nat.lt_irrefl _ hx

/-- A parameter, the argument passed for it, and the argument's value. -/
structure Passed where
  param : Var
  arg : Var
  val : Val

/-- An argument in its register. -/
def packNonUniform (ty : Ty) (v : Val) : Val := if rawTy ty = some .vec128 then .tuple [v] else v

def packUniform (ty : Ty) (v : Val) : Val := if (rawTy ty).isSome then .tuple [v] else v

/-- Arguments together in one register. -/
def packStd : List (Ty × Val) → Val
  | [] => .lit (.enum 0)
  | [(ty, v)] => packUniform ty v
  | tvs => .tuple (tvs.map Prod.snd)

def packSpilled : List (Ty × Val) → List Val
  | [] => []
  | tvs => [packStd tvs]

/-- `binds` computes from the arguments of `zs` the values `vs`, in variables `xs` of types `tys`. -/
structure Packs (s s' : Types) (zs : List Passed) (binds : List Exp) (xs : List Var) (tys : List Ty) (vs : List Val) :
    Prop where
  le : s.Le s'
  bound : ∀ x ∈ xs, x.stamp < s'.next
  types : xs.map s'.typeOf = tys
  runs : ∀ env : Env, (∀ z ∈ zs, env z.arg = some z.val) → ∃ env', evalExps env binds = some env' ∧
    xs.map env' = vs.map some ∧ ∀ y : Var, y.stamp < s.next → env' y = env y

theorem evalExps_append (env : Env) (es es' : List Exp) :
    evalExps env (es ++ es') = (evalExps env es).bind fun env' => evalExps env' es' := by
  induction es generalizing env with
  | nil => rfl
  | cons e es ih =>
    rw [cons_append, evalExps, evalExps, Option.bind_assoc]
    congr 1
    funext env'
    exact ih env'

theorem Packs.nil (s : Types) : Packs s s [] [] [] [] [] where
  le := .refl s
  bound := by simp
  types := rfl
  runs := by
    intro env _
    exact ⟨env, rfl, rfl, fun _ _ => rfl⟩

theorem Packs.append {s s₁ s₂ : Types} {zs zs' : List Passed} {binds binds' : List Exp} {xs xs' : List Var}
    {tys tys' : List Ty} {vs vs' : List Val} (h : Packs s s₁ zs binds xs tys vs)
    (h' : Packs s₁ s₂ zs' binds' xs' tys' vs') (hold : ∀ z ∈ zs', z.arg.stamp < s.next) :
    Packs s s₂ (zs ++ zs') (binds ++ binds') (xs ++ xs') (tys ++ tys') (vs ++ vs') where
  le := h.le.trans h'.le
  bound := by
    intro x hx
    rcases List.mem_append.mp hx with hx | hx
    · exact Nat.lt_of_lt_of_le (h.bound x hx) h'.le.1
    · exact h'.bound x hx
  types := by
    rw [map_append, h'.types, ← h.types]
    congr 1
    exact map_congr_left fun x hx => h'.le.2 x (h.bound x hx)
  runs := by
    intro env hz
    obtain ⟨env₁, hr₁, hv₁, hf₁⟩ := h.runs env fun z hz' => hz z (mem_append_left _ hz')
    obtain ⟨env₂, hr₂, hv₂, hf₂⟩ := h'.runs env₁ (by
      simp_all)
    refine ⟨env₂, ?_, ?_, ?_⟩
    · rw [evalExps_append, hr₁]
      exact hr₂
    · rw [map_append, map_append, hv₂, ← hv₁]
      congr 1
      exact map_congr_left fun x hx => hf₂ x (h.bound x hx)
    · intro y hy
      rw [hf₂ y (Nat.lt_of_lt_of_le hy h.le.1), hf₁ y hy]

/-- Nothing to do for an argument that goes as it is. -/
theorem Packs.keep {s : Types} {z : Passed} {ty : Ty} (hz : z.arg.stamp < s.next) (hty : s.typeOf z.arg = ty) :
    Packs s s [z] [] [z.arg] [ty] [z.val] where
  le := .refl s
  bound := by simpa using hz
  types := by rw [← hty]; rfl
  runs := by
    intro env hv
    refine ⟨env, rfl, ?_, fun _ _ => rfl⟩
    rw [map_singleton, hv z (by simp)]
    rfl

theorem mapM_args {zs : List Passed} {env : Env} (h : ∀ z ∈ zs, env z.arg = some z.val) :
    (zs.map Passed.arg).mapM env = some (zs.map Passed.val) := by
  induction zs with
  | nil => rfl
  | cons z zs ih =>
    rw [map_cons, mapM_cons, h z (by simp), ih fun z' hz' => h z' (by simp [hz'])]
    rfl

/-- Arguments that go in a fresh tuple. -/
theorem Packs.tuple (s : Types) (zs : List Passed) (ty : Ty) (tys : List Ty) :
    Packs s (s.add ty) zs [.alloc ⟨s.next⟩ (.tuple false tys) (zs.map Passed.arg)] [⟨s.next⟩] [ty]
      [.tuple (zs.map Passed.val)] where
  le := s.le_add ty
  bound := by
    intro x hx
    rw [mem_singleton] at hx
    subst hx
    exact Nat.lt_succ_self _
  types := by rw [map_singleton, s.typeOf_add ty]
  runs := by
    intro env hv
    refine ⟨update env ⟨s.next⟩ (some (.tuple (zs.map Passed.val))), ?_, ?_, ?_⟩
    · simp only [evalExps, evalExp, mapM_args hv, Option.map_some, Option.bind_some]
    · simp
    · intro y hy
      exact update_of_ne (ne_fresh hy) _ _

/-- No arguments: a fresh unit. -/
theorem Packs.unit (s : Types) :
    Packs s (s.add unitTy) [] [.const ⟨s.next⟩ (.enum 0) unitTy] [⟨s.next⟩] [unitTy] [.lit (.enum 0)] where
  le := s.le_add unitTy
  bound := by
    intro x hx
    rw [mem_singleton] at hx
    subst hx
    exact Nat.lt_succ_self _
  types := by rw [map_singleton, s.typeOf_add unitTy]
  runs := by
    intro env _
    refine ⟨update env ⟨s.next⟩ (some (.lit (.enum 0))), rfl, ?_, ?_⟩
    · simp
    · intro y hy
      exact update_of_ne (ne_fresh hy) _ _

section Actuals

variable (T : TargetSpec) (old : Var → Ty)

/-- The arguments of a call are older than the pass, and like their parameters. -/
def ArgsOk (s : Types) (zs : List Passed) : Prop :=
  ∀ z ∈ zs, z.arg.stamp < s.next ∧ s.typeOf z.arg = transTy T (old z.arg) ∧ SameRaw (old z.arg) (old z.param)

variable {T old}

variable {s : Types} {zs : List Passed}

theorem ArgsOk.mono {zs' : List Passed} (h : ArgsOk T old s zs) (hsub : ∀ z ∈ zs', z ∈ zs) :
    ArgsOk T old s zs' := fun z hz => h z (hsub z hz)

theorem ArgsOk.le {s' : Types} (h : ArgsOk T old s zs) (hs : s.Le s') : ArgsOk T old s' zs := by
  intro z hz
  obtain ⟨hlt, hty, hraw⟩ := h z hz
  exact ⟨Nat.lt_of_lt_of_le hlt hs.1, by rw [hs.2 _ hlt, hty], hraw⟩

theorem transTyUniformArg_eq (ty : Ty) (newTy : Ty) : transTyUniformArg ⟨ty, newTy⟩ =
    match rawTy ty with
    | some rt => wrapRaw rt
    | none => newTy := by
  cases ty <;> rfl

/-- Only a vector is wrapped to go by itself. -/
theorem transTyNonUniformArg_eq (T : TargetSpec) (ty : Ty) : transTyNonUniformArg ⟨ty, transTy T ty⟩ =
    if rawTy ty = some .vec128 then wrapRaw .vec128 else transTy T ty := by
  grind [transTyNonUniformArg, rawTy, transTy]

theorem transActualUniformArg_eq (arg : Var) : transActualUniformArg old arg =
    match rawTy (old arg) with
    | some rt => do
      let newArg ← newVar (wrapRaw rt)
      return ([← mkWrap newArg arg], newArg)
    | none => return ([], arg) := by
  rw [transActualUniformArg]
  cases old arg <;> rfl

theorem transActualNonUniformArg_eq (arg : Var) : transActualNonUniformArg old arg =
    if rawTy (old arg) = some .vec128 then do
      let newArg ← newVar (wrapRaw .vec128)
      return ([← mkWrap newArg arg], newArg)
    else return ([], arg) := by
  rw [transActualNonUniformArg]
  cases old arg with
  | raw rt => cases rt <;> rfl
  | _ => rfl

/-- An argument that goes together with others, but alone. -/
theorem transActualUniformArg_packs {z : Passed} (hz : ArgsOk T old s [z]) :
    ∃ binds x s', transActualUniformArg old z.arg s = ((binds, x), s') ∧ Packs s s' [z] binds [x]
      [transTyUniformArg ⟨old z.arg, transTy T (old z.arg)⟩] [packUniform (old z.param) z.val] := by
  obtain ⟨hlt, hty, hraw⟩ := hz z (by simp)
  have hraw' : rawTy (old z.param) = rawTy (old z.arg) := hraw.symm
  rw [transActualUniformArg_eq, transTyUniformArg_eq, packUniform, hraw']
  cases rawTy (old z.arg) with
  | some rt => exact ⟨_, _, _, rfl, Packs.tuple s [z] (wrapRaw rt) _⟩
  | none => exact ⟨_, _, _, rfl, Packs.keep hlt hty⟩

/-- An argument that goes by itself. -/
theorem transActualNonUniformArg_packs {z : Passed} (hz : ArgsOk T old s [z]) :
    ∃ binds x s', transActualNonUniformArg old z.arg s = ((binds, x), s') ∧ Packs s s' [z] binds [x]
      [transTyNonUniformArg ⟨old z.arg, transTy T (old z.arg)⟩] [packNonUniform (old z.param) z.val] := by
  obtain ⟨hlt, hty, hraw⟩ := hz z (by simp)
  have hraw' : rawTy (old z.param) = rawTy (old z.arg) := hraw.symm
  rw [transActualNonUniformArg_eq, transTyNonUniformArg_eq, packNonUniform, hraw']
  by_cases hvec : rawTy (old z.arg) = some .vec128
  · simp only [if_pos hvec]
    exact ⟨_, _, _, rfl, Packs.tuple s [z] (wrapRaw .vec128) _⟩
  · simp only [if_neg hvec]
    exact ⟨_, _, _, rfl, Packs.keep hlt hty⟩

/-- The parameters' types and the arguments' values. -/
def Passed.typed (old : Var → Ty) (z : Passed) : Ty × Val := (old z.param, z.val)

theorem transTyStdArgs_many (x : Passed → Var) (z z' : Passed) (zs : List Passed) :
    transTyStdArgs (transArgs T ((z :: z' :: zs).map fun z => old (x z))) =
      .tuple false (((z :: z' :: zs).map x).map fun x => transTy T (old x)) := by
  rw [transArgs_eq]
  simp [transTyStdArgs]

theorem packStd_many (z z' : Passed) (zs : List Passed) :
    packStd ((z :: z' :: zs).map (Passed.typed old)) = .tuple ((z :: z' :: zs).map Passed.val) := by
  simp [packStd, Passed.typed]

/-- Arguments that go together. -/
theorem transActualStdArgs_packs (hz : ArgsOk T old s zs) :
    ∃ binds x s', transActualStdArgs T old (zs.map Passed.arg) s = ((binds, x), s') ∧ Packs s s' zs binds [x]
      [transTyStdArgs (transArgs T (zs.map fun z => old z.arg))] [packStd (zs.map (Passed.typed old))] := by
  match zs, hz with
  | [], _ => exact ⟨_, _, _, rfl, Packs.unit s⟩
  | [z], hz => exact transActualUniformArg_packs hz
  | z :: z' :: zs, hz =>
    refine ⟨_, _, _, rfl, ?_⟩
    rw [transTyStdArgs_many Passed.arg, packStd_many]
    exact Packs.tuple s (z :: z' :: zs) _ _

/-- Arguments that are kept, in order. -/
theorem mapM_actuals_packs (hz : ArgsOk T old s zs) :
    ∃ rs s', (zs.map Passed.arg).mapM (transActualNonUniformArg old) s = (rs, s') ∧ Packs s s' zs
      (rs.map Prod.fst).flatten (rs.map Prod.snd)
      (zs.map fun z => transTyNonUniformArg ⟨old z.arg, transTy T (old z.arg)⟩)
      (zs.map fun z => packNonUniform (old z.param) z.val) := by
  induction zs generalizing s with
  | nil => exact ⟨[], s, rfl, Packs.nil s⟩
  | cons z zs ih =>
    have hhead : ArgsOk T old s [z] := hz.mono (by simp)
    have htail : ArgsOk T old s zs := hz.mono fun z' hz' => List.mem_cons_of_mem z hz'
    obtain ⟨binds, x, s₁, hx, hpx⟩ := transActualNonUniformArg_packs hhead
    obtain ⟨rs, s₂, hrs, hprs⟩ := ih (htail.le hpx.le)
    refine ⟨(binds, x) :: rs, s₂, ?_, ?_⟩
    · rw [map_cons, mapM_cons, run_bind hx, run_bind hrs]
      rfl
    · exact hpx.append hprs fun z' hz' => (htail z' hz').1

/-- Arguments that are spilled. -/
theorem spilled_actuals_packs (hz : ArgsOk T old s zs) :
    ∃ rs s', spilled (transActualStdArgs T old) (zs.map Passed.arg) s = (rs, s') ∧ Packs s s' zs
      (rs.map Prod.fst).flatten (rs.map Prod.snd) (spilledTys T (zs.map fun z => old z.arg))
      (packSpilled (zs.map (Passed.typed old))) := by
  cases zs with
  | nil => exact ⟨[], s, rfl, Packs.nil s⟩
  | cons z zs =>
    obtain ⟨binds, x, s', hx, hp⟩ := transActualStdArgs_packs hz
    refine ⟨[(binds, x)], s', ?_, ?_⟩
    · rw [map_cons, spilled, ← map_cons, run_bind hx]
      · rfl
      · simp
    · simpa [spilledTys, packSpilled] using hp

/-- Arguments of a known function. -/
theorem transActualKFncArgs_packs (hz : ArgsOk T old s zs) :
    ∃ binds xs s', transActualKFncArgs T old (zs.map Passed.arg) s = ((binds, xs), s') ∧ Packs s s'
      ((layout T (fun z => old z.arg) zs).1 ++ (layout T (fun z => old z.arg) zs).2) binds xs
      (transTyKFncArgs T (transArgs T (zs.map fun z => old z.arg)))
      ((layout T (fun z => old z.arg) zs).1.map (fun z => packNonUniform (old z.param) z.val) ++
        packSpilled ((layout T (fun z => old z.arg) zs).2.map (Passed.typed old))) := by
  have hmem : ∀ z, z ∈ (layout T (fun z => old z.arg) zs).1 ++ (layout T (fun z => old z.arg) zs).2 → z ∈ zs :=
    fun z hz => (split_perm _ zs _ _).mem_iff.mp hz
  have hk : ArgsOk T old s (layout T (fun z => old z.arg) zs).1 := hz.mono fun z hz' => hmem z (mem_append_left _ hz')
  have hs : ArgsOk T old s (layout T (fun z => old z.arg) zs).2 := hz.mono fun z hz' => hmem z (List.mem_append_right _ hz')
  obtain ⟨rs, s₁, hrs, hp⟩ := mapM_actuals_packs hk
  obtain ⟨rs', s₂, hrs', hp'⟩ := spilled_actuals_packs (hs.le hp.le)
  refine ⟨(rs.map Prod.fst).flatten ++ (rs'.map Prod.fst).flatten, rs.map Prod.snd ++ rs'.map Prod.snd, s₂, ?_, ?_⟩
  · rw [transActualKFncArgs, kfncArgs_eq, layout_map, bind_assoc, run_bind hrs, bind_assoc, run_bind hrs']
    simp only [pure_bind, map_append, List.flatten_append]
    rfl
  · rw [transTyKFncArgs_eq]
    exact hp.append hp' fun z' hz' => (hs z' hz').1

end Actuals

/-! ## The code of an entry -/

/-- `binds` computes the parameters of `zs` from variables `xs`, of types `tys`, with the values `vs`. -/
structure Unpacks (s s' : Types) (zs : List Passed) (xs : List Var) (binds : List Exp) (tys : List Ty) (vs : List Val) :
    Prop where
  le : s.Le s'
  nodup : xs.Nodup
  names : ∀ x ∈ xs, x ∈ zs.map Passed.param ∨ (s.next ≤ x.stamp ∧ x.stamp < s'.next)
  types : xs.map s'.typeOf = tys
  runs : ∀ env : Env, xs.map env = vs.map some → ∃ env', evalExps env binds = some env' ∧
    (∀ z ∈ zs, env' z.param = some z.val) ∧ ∀ y, y ∉ zs.map Passed.param → env' y = env y

theorem Unpacks.nil (s : Types) : Unpacks s s [] [] [] [] [] where
  le := .refl s
  nodup := .nil
  names := by simp
  types := rfl
  runs := by
    intro env _
    exact ⟨env, rfl, by simp, fun _ _ => rfl⟩

theorem Unpacks.append {s s₁ s₂ : Types} {zs zs' : List Passed} {binds binds' : List Exp} {xs xs' : List Var}
    {tys tys' : List Ty} {vs vs' : List Val} (h : Unpacks s s₁ zs xs binds tys vs)
    (h' : Unpacks s₁ s₂ zs' xs' binds' tys' vs') (hlen : xs.length = vs.length)
    (hdis : ∀ z ∈ zs, ∀ z' ∈ zs', z.param ≠ z'.param) (hold : ∀ z ∈ zs ++ zs', z.param.stamp < s.next) :
    Unpacks s s₂ (zs ++ zs') (xs ++ xs') (binds ++ binds') (tys ++ tys') (vs ++ vs') := by
  have hstamp : ∀ x ∈ (zs ++ zs').map Passed.param, x.stamp < s.next := by
    intro x hx
    obtain ⟨z, hz, rfl⟩ := List.mem_map.mp hx
    exact hold z hz
  have hbound : ∀ x ∈ xs, x.stamp < s₁.next := by
    intro x hx
    rcases h.names x hx with hx | ⟨-, hx⟩
    · exact Nat.lt_of_lt_of_le (hstamp x (by simp_all)) h.le.1
    · exact hx
  -- the first part leaves the second part's variables as they are
  have hapart : ∀ x ∈ xs', x ∉ zs.map Passed.param := by
    intro x hx hx'
    rcases h'.names x hx with hx | ⟨hx, -⟩
    · grind
    · have hlt := hstamp x (by simp_all)
      have hle := h.le.1
      omega
  constructor
  · exact h.le.trans h'.le
  · refine List.nodup_append.mpr ⟨h.nodup, h'.nodup, ?_⟩
    rintro x hx _ hx' rfl
    rcases h.names x hx with hp | ⟨hge, hlt⟩
    · exact hapart x hx' hp
    · rcases h'.names x hx' with hp | ⟨hge', -⟩
      · have := hstamp x (by simp_all)
        omega
      · omega
  · intro x hx
    rcases List.mem_append.mp hx with hx | hx
    · rcases h.names x hx with hp | ⟨hge, hlt⟩
      · exact .inl (by simp_all)
      · exact .inr ⟨hge, Nat.lt_of_lt_of_le hlt h'.le.1⟩
    · rcases h'.names x hx with hp | ⟨hge, hlt⟩
      · exact .inl (by simp_all)
      · exact .inr ⟨Nat.le_trans h.le.1 hge, hlt⟩
  · rw [map_append, h'.types, ← h.types]
    congr 1
    exact map_congr_left fun x hx => h'.le.2 x (hbound x hx)
  · intro env hv
    rw [map_append, map_append] at hv
    obtain ⟨hv₁, hv₂⟩ := List.append_inj hv (by simpa using hlen)
    obtain ⟨env₁, hr₁, hp₁, hf₁⟩ := h.runs env hv₁
    obtain ⟨env₂, hr₂, hp₂, hf₂⟩ := h'.runs env₁ (by
      rw [← hv₂]
      exact map_congr_left fun x hx => hf₁ x (hapart x hx))
    refine ⟨env₂, ?_, ?_, ?_⟩
    · rw [evalExps_append, hr₁]
      exact hr₂
    · grind
    grind

/-- A parameter that is passed as it is. -/
theorem Unpacks.keep {s : Types} {z : Passed} {ty : Ty} (hty : s.typeOf z.param = ty) :
    Unpacks s s [z] [z.param] [] [ty] [z.val] where
  le := .refl s
  nodup := by simp
  names := by simp
  types := by rw [← hty]; rfl
  runs := by
    intro env hv
    refine ⟨env, rfl, ?_, fun _ _ => rfl⟩
    simp_all

theorem evalExps_selects {zs : List Passed} {x : Var} {vs : List Val} (hx : ∀ z ∈ zs, z.param ≠ x)
    (hnd : (zs.map Passed.param).Nodup) (i : Nat) (hvs : vs.drop i = zs.map Passed.val) (env : Env)
    (henv : env x = some (.tuple vs)) :
    ∃ env', evalExps env (selects x i (zs.map Passed.param)) = some env' ∧
      (∀ z ∈ zs, env' z.param = some z.val) ∧ ∀ y, y ∉ zs.map Passed.param → env' y = env y := by
  induction zs generalizing i env with
  | nil => exact ⟨env, rfl, by simp, fun _ _ => rfl⟩
  | cons z zs ih =>
    rw [map_cons, List.nodup_cons] at hnd
    have hget : vs[i]? = some z.val := by
      rw [← List.head?_drop, hvs]
      rfl
    have hdrop : vs.drop (i + 1) = zs.map Passed.val := by
      rw [← List.tail_drop, hvs]
      rfl
    have hne : x ≠ z.param := (hx z (by simp)).symm
    obtain ⟨env', hr, hp, hf⟩ := ih (fun z' hz' => hx z' (by simp [hz'])) hnd.2 (i + 1) hdrop
      (update env z.param (some z.val)) (by rw [update_of_ne hne, henv])
    grind [selects, evalExps, evalExp]

/-- Parameters from a fresh tuple. -/
theorem Unpacks.tuple {s : Types} {zs : List Passed} (hold : ∀ z ∈ zs, z.param.stamp < s.next)
    (hnd : (zs.map Passed.param).Nodup) (ty : Ty) :
    Unpacks s (s.add ty) zs [⟨s.next⟩] (selects ⟨s.next⟩ 0 (zs.map Passed.param)) [ty] [.tuple (zs.map Passed.val)] where
  le := s.le_add ty
  nodup := by simp
  names := by
    intro x hx
    rw [mem_singleton] at hx
    subst hx
    exact .inr ⟨Nat.le_refl _, Nat.lt_succ_self _⟩
  types := by rw [map_singleton, s.typeOf_add ty]
  runs := by
    intro env hv
    exact evalExps_selects (fun z hz => ne_fresh (hold z hz)) hnd 0 rfl env (List.cons.inj hv).1

/-- No parameters: a fresh variable for the unit. -/
theorem Unpacks.unit (s : Types) : Unpacks s (s.add unitTy) [] [⟨s.next⟩] [] [unitTy] [.lit (.enum 0)] where
  le := s.le_add unitTy
  nodup := by simp
  names := by
    intro x hx
    rw [mem_singleton] at hx
    subst hx
    exact .inr ⟨Nat.le_refl _, Nat.lt_succ_self _⟩
  types := by rw [map_singleton, s.typeOf_add unitTy]
  runs := by
    intro env _
    exact ⟨env, rfl, by simp, fun _ _ => rfl⟩

section Formals

variable (T : TargetSpec) (old : Var → Ty)

/-- The parameters of an entry are older than the pass. -/
def ParamsOk (s : Types) (zs : List Passed) : Prop :=
  ∀ z ∈ zs, z.param.stamp < s.next ∧ s.typeOf z.param = transTy T (old z.param)

variable {T old}

variable {s : Types} {zs : List Passed}

theorem ParamsOk.mono {zs' : List Passed} (h : ParamsOk T old s zs) (hsub : ∀ z ∈ zs', z ∈ zs) :
    ParamsOk T old s zs' := fun z hz => h z (hsub z hz)

theorem ParamsOk.le {s' : Types} (h : ParamsOk T old s zs) (hs : s.Le s') : ParamsOk T old s' zs := by
  intro z hz
  obtain ⟨hlt, hty⟩ := h z hz
  exact ⟨Nat.lt_of_lt_of_le hlt hs.1, by rw [hs.2 _ hlt, hty]⟩

theorem transFormalUniformArg_eq (arg : Var) : transFormalUniformArg old arg =
    match rawTy (old arg) with
    | some rt => do
      let newArg ← newVar (wrapRaw rt)
      return (newArg, [mkUnwrap arg newArg])
    | none => return (arg, []) := by
  rw [transFormalUniformArg]
  cases old arg <;> rfl

theorem transFormalNonUniformArg_eq (arg : Var) : transFormalNonUniformArg old arg =
    if rawTy (old arg) = some .vec128 then do
      let newArg ← newVar (wrapRaw .vec128)
      return (newArg, [mkUnwrap arg newArg])
    else return (arg, []) := by
  rw [transFormalNonUniformArg]
  cases old arg with
  | raw rt => cases rt <;> rfl
  | _ => rfl

theorem transFormalUniformArg_unpacks {z : Passed} (hz : ParamsOk T old s [z]) :
    ∃ x binds s', transFormalUniformArg old z.param s = ((x, binds), s') ∧ Unpacks s s' [z] [x] binds
      [transTyUniformArg ⟨old z.param, transTy T (old z.param)⟩] [packUniform (old z.param) z.val] := by
  obtain ⟨hlt, hty⟩ := hz z (by simp)
  rw [transFormalUniformArg_eq, transTyUniformArg_eq, packUniform]
  cases rawTy (old z.param) with
  | some rt => exact ⟨_, _, _, rfl, @Unpacks.tuple s [z] (by simpa using hlt) (by simp) (wrapRaw rt)⟩
  | none => exact ⟨_, _, _, rfl, Unpacks.keep hty⟩

theorem transFormalNonUniformArg_unpacks {z : Passed} (hz : ParamsOk T old s [z]) :
    ∃ x binds s', transFormalNonUniformArg old z.param s = ((x, binds), s') ∧ Unpacks s s' [z] [x] binds
      [transTyNonUniformArg ⟨old z.param, transTy T (old z.param)⟩] [packNonUniform (old z.param) z.val] := by
  obtain ⟨hlt, hty⟩ := hz z (by simp)
  rw [transFormalNonUniformArg_eq, transTyNonUniformArg_eq, packNonUniform]
  by_cases hvec : rawTy (old z.param) = some .vec128
  · simp only [if_pos hvec]
    exact ⟨_, _, _, rfl, @Unpacks.tuple s [z] (by simpa using hlt) (by simp) (wrapRaw .vec128)⟩
  · simp only [if_neg hvec]
    exact ⟨_, _, _, rfl, Unpacks.keep hty⟩

/-- Parameters that come together. -/
theorem transFormalStdArgs_unpacks (hz : ParamsOk T old s zs) (hnd : (zs.map Passed.param).Nodup) :
    ∃ x binds s', transFormalStdArgs T old (zs.map Passed.param) s = ((x, binds), s') ∧ Unpacks s s' zs [x] binds
      [transTyStdArgs (transArgs T (zs.map fun z => old z.param))] [packStd (zs.map (Passed.typed old))] := by
  match zs, hz, hnd with
  | [], _, _ => exact ⟨_, _, _, rfl, Unpacks.unit s⟩
  | [z], hz, _ => exact transFormalUniformArg_unpacks hz
  | z :: z' :: zs, hz, hnd =>
    refine ⟨_, _, _, rfl, ?_⟩
    rw [transTyStdArgs_many Passed.param, packStd_many]
    exact Unpacks.tuple (fun z hz' => (hz z hz').1) hnd _

/-- Parameters that are kept, in order. -/
theorem mapM_formals_unpacks (hz : ParamsOk T old s zs) (hnd : (zs.map Passed.param).Nodup) :
    ∃ rs s', (zs.map Passed.param).mapM (transFormalNonUniformArg old) s = (rs, s') ∧ Unpacks s s' zs
      (rs.map Prod.fst) (rs.map Prod.snd).flatten
      (zs.map fun z => transTyNonUniformArg ⟨old z.param, transTy T (old z.param)⟩)
      (zs.map fun z => packNonUniform (old z.param) z.val) := by
  induction zs generalizing s with
  | nil => exact ⟨[], s, rfl, Unpacks.nil s⟩
  | cons z zs ih =>
    have hhead : ParamsOk T old s [z] := hz.mono (by simp)
    have htail : ParamsOk T old s zs := hz.mono fun z' hz' => List.mem_cons_of_mem z hz'
    rw [map_cons, List.nodup_cons] at hnd
    obtain ⟨x, binds, s₁, hx, hpx⟩ := transFormalNonUniformArg_unpacks hhead
    obtain ⟨rs, s₂, hrs, hprs⟩ := ih (htail.le hpx.le) hnd.2
    refine ⟨(x, binds) :: rs, s₂, ?_, ?_⟩
    · rw [map_cons, mapM_cons, run_bind hx, run_bind hrs]
      rfl
    · refine hpx.append hprs rfl ?_ fun z' hz' => (hz z' hz').1
      grind

/-- Parameters that were spilled. -/
theorem spilled_formals_unpacks (hz : ParamsOk T old s zs) (hnd : (zs.map Passed.param).Nodup) :
    ∃ rs s', spilled (transFormalStdArgs T old) (zs.map Passed.param) s = (rs, s') ∧ Unpacks s s' zs
      (rs.map Prod.fst) (rs.map Prod.snd).flatten (spilledTys T (zs.map fun z => old z.param))
      (packSpilled (zs.map (Passed.typed old))) := by
  cases zs with
  | nil => exact ⟨[], s, rfl, Unpacks.nil s⟩
  | cons z zs =>
    obtain ⟨x, binds, s', hx, hp⟩ := transFormalStdArgs_unpacks hz hnd
    refine ⟨[(x, binds)], s', ?_, ?_⟩
    · rw [map_cons, spilled, ← map_cons, run_bind hx]
      · rfl
      · simp
    · simpa [spilledTys, packSpilled] using hp

/-- Parameters of a known function. -/
theorem transFormalKFncArgs_unpacks (hz : ParamsOk T old s zs) (hnd : (zs.map Passed.param).Nodup) :
    ∃ xs binds s', transFormalKFncArgs T old (zs.map Passed.param) s = ((xs, binds), s') ∧ Unpacks s s'
      ((layout T (fun z => old z.param) zs).1 ++ (layout T (fun z => old z.param) zs).2) xs binds
      (transTyKFncArgs T (transArgs T (zs.map fun z => old z.param)))
      ((layout T (fun z => old z.param) zs).1.map (fun z => packNonUniform (old z.param) z.val) ++
        packSpilled ((layout T (fun z => old z.param) zs).2.map (Passed.typed old))) := by
  have hperm := split_perm (fun z => old z.param) zs
  have hmem : ∀ z, z ∈ (layout T (fun z => old z.param) zs).1 ++ (layout T (fun z => old z.param) zs).2 → z ∈ zs :=
    fun z hz => (hperm _ _).mem_iff.mp hz
  have hnd' : (((layout T (fun z => old z.param) zs).1 ++ (layout T (fun z => old z.param) zs).2).map Passed.param).Nodup :=
    ((hperm _ _).map Passed.param).nodup_iff.mpr hnd
  rw [map_append] at hnd'
  obtain ⟨hnd₁, hnd₂, hdis⟩ := List.nodup_append.mp hnd'
  have hk : ParamsOk T old s (layout T (fun z => old z.param) zs).1 :=
    hz.mono fun z hz' => hmem z (mem_append_left _ hz')
  have hs : ParamsOk T old s (layout T (fun z => old z.param) zs).2 :=
    hz.mono fun z hz' => hmem z (List.mem_append_right _ hz')
  obtain ⟨rs, s₁, hrs, hp⟩ := mapM_formals_unpacks hk hnd₁
  obtain ⟨rs', s₂, hrs', hp'⟩ := spilled_formals_unpacks (hs.le hp.le) hnd₂
  refine ⟨rs.map Prod.fst ++ rs'.map Prod.fst, (rs.map Prod.snd).flatten ++ (rs'.map Prod.snd).flatten, s₂, ?_, ?_⟩
  · rw [transFormalKFncArgs, kfncArgs_eq, layout_map, bind_assoc, run_bind hrs, bind_assoc, run_bind hrs']
    simp only [pure_bind, map_append, List.flatten_append]
    rfl
  · rw [transTyKFncArgs_eq]
    refine hp.append hp' ?_ ?_ fun z' hz' => (hz z' (hmem z' hz')).1
    · have hlen := congrArg length hp.types
      simpa using hlen
    grind [List.mem_map_of_mem]

end Formals

/-! ## Limits -/

theorem regs_append (tys tys' : List Ty) : regsTyNonUniformArgs (tys ++ tys') =
    ⟨(regsTyNonUniformArgs tys).gprs + (regsTyNonUniformArgs tys').gprs,
      (regsTyNonUniformArgs tys).fprs + (regsTyNonUniformArgs tys').fprs⟩ := by
  induction tys with
  | nil => simp [regsTyNonUniformArgs]
  | cons ty tys ih =>
    rw [cons_append, regs_cons, ih, regs_cons]
    simp only [Regs.mk.injEq]
    omega

theorem regs_congr {α : Type} {f g : α → Ty} {as : List α}
    (h : ∀ a ∈ as, regsTyNonUniformArg (f a) = regsTyNonUniformArg (g a)) :
    regsTyNonUniformArgs (as.map f) = regsTyNonUniformArgs (as.map g) := by
  induction as with
  | nil => rfl
  | cons a as ih =>
    rw [map_cons, map_cons, regs_cons, regs_cons, h a (by simp), ih fun b hb => h b (by simp [hb])]

/-- What is kept, and one register more if anything is spilled, is within the limits. -/
theorem layout_le (T : TargetSpec) {α : Type} (ty : α → Ty) (args : List α) :
    (regsTyNonUniformArgs ((layout T ty args).1.map ty)).gprs + (if (layout T ty args).2 = [] then 0 else 1) ≤
        T.maxGPRArgs - 1 ∧
      (regsTyNonUniformArgs ((layout T ty args).1.map ty)).fprs ≤ T.maxFPRArgs := by
  have h4 := T.four_le
  by_cases hover : ((regsTyNonUniformArgs (args.map ty)).gprs : Int) > T.maxGPRArgs - 1 ∨
      ((regsTyNonUniformArgs (args.map ty)).fprs : Int) > T.maxFPRArgs
  · have h0 : (0 : Int) ≤ (T.maxGPRArgs : Int) - 1 - 1 := by omega
    obtain ⟨hg, hf⟩ := split_le ty args h0 (Int.natCast_nonneg T.maxFPRArgs)
    simp only [layout, if_pos hover]
    split <;> omega
  · obtain ⟨hg, hf⟩ := not_or.mp hover
    have hfits := split_fits ty args (Int.not_lt.mp hg) (Int.not_lt.mp hf)
    simp only [layout, if_neg hover, hfits, if_true]
    omega

/-- The translated arguments are within the limits. -/
theorem transTyArgs_le (T : TargetSpec) (p : Passing) (tys : List Ty) :
    (regsTyNonUniformArgs (transTyArgs T p tys)).gprs ≤ T.maxGPRArgs - 1 ∧
      (regsTyNonUniformArgs (transTyArgs T p tys)).fprs ≤ T.maxFPRArgs := by
  have h4 := T.four_le
  cases p with
  | std =>
    rw [transTyArgs, regs_cons, regs_transTyStdArgs]
    simp only [regsTyNonUniformArgs, List.foldl_nil]
    omega
  | known =>
    have heq := transTyKFncArgs_eq T id tys
    have hle := layout_le T id tys
    have hkept : regsTyNonUniformArgs ((layout T id tys).1.map fun a => transTyNonUniformArg ⟨id a, transTy T (id a)⟩) =
        regsTyNonUniformArgs ((layout T id tys).1.map id) := regs_congr fun ty _ => regs_transTyNonUniformArg T ty
    rw [List.map_id] at heq
    rw [transTyArgs, heq, regs_append, hkept]
    cases hs : (layout T id tys).2 with
    | nil =>
      rw [hs] at hle
      simpa [spilledTys, regsTyNonUniformArgs] using hle
    | cons ty tys' =>
      rw [hs] at hle
      simp only [map_cons, spilledTys]
      rw [regs_cons, regs_transTyStdArgs]
      simpa [regsTyNonUniformArgs] using hle

/-! ## Calls -/

section Calls

variable {T : TargetSpec} {old : Var → Ty}

/-- The parameters in the order in which they are passed. -/
def passedOrder (T : TargetSpec) (old : Var → Ty) (p : Passing) (zs : List Passed) : List Passed :=
  match p with
  | .std => zs
  | .known => (layout T (fun z => old z.param) zs).1 ++ (layout T (fun z => old z.param) zs).2

/-- The values that are passed. -/
def passedVals (T : TargetSpec) (old : Var → Ty) (p : Passing) (zs : List Passed) : List Val :=
  match p with
  | .std => [packStd (zs.map (Passed.typed old))]
  | .known => (layout T (fun z => old z.param) zs).1.map (fun z => packNonUniform (old z.param) z.val) ++
      packSpilled ((layout T (fun z => old z.param) zs).2.map (Passed.typed old))

variable {zs : List Passed}

theorem mem_passedOrder {p : Passing} {z : Passed} : z ∈ passedOrder T old p zs ↔ z ∈ zs := by
  cases p with
  | std => exact Iff.rfl
  | known => exact (split_perm _ zs _ _).mem_iff

/-- What a transfer passes. -/
theorem transTransfer_packs {s s' : Types} {t t' : Transfer} {p : Passing} {pack : List Exp}
    (ht : t.call = some (p, zs.map Passed.arg)) (hx : transTransfer T old t s = ((pack, t'), s'))
    (hz : ArgsOk T old s zs) :
    ∃ actuals, t'.call = some (p, actuals) ∧ Packs s s' (passedOrder T old p zs) pack actuals
      (transTyArgs T p (zs.map fun z => old z.arg)) (passedVals T old p zs) := by
  have std : ∀ {f : List Exp × Var → List Exp × Transfer}, (∀ r, (f r).1 = r.1 ∧ (f r).2.call = some (.std, [r.2])) →
      (do return f (← transActualStdArgs T old (zs.map Passed.arg)) : StateM Types _) s = ((pack, t'), s') →
      ∃ actuals, t'.call = some (.std, actuals) ∧ Packs s s' zs pack actuals
        [transTyStdArgs (transArgs T (zs.map fun z => old z.arg))] [packStd (zs.map (Passed.typed old))] := by
    intro f hf hrun
    obtain ⟨binds, x, s₁, hr, hp⟩ := transActualStdArgs_packs hz
    rw [run_bind hr] at hrun
    obtain ⟨hres, rfl⟩ := Prod.mk.inj hrun
    grind
  cases t with
  | stdApply f clos args ret exh =>
    obtain ⟨rfl, rfl⟩ := Prod.mk.inj (Option.some.inj ht)
    exact std (f := fun r => (r.1, .stdApply f clos [r.2] ret exh)) (fun _ => ⟨rfl, rfl⟩) hx
  | stdThrow k clos args =>
    obtain ⟨rfl, rfl⟩ := Prod.mk.inj (Option.some.inj ht)
    exact std (f := fun r => (r.1, .stdThrow k clos [r.2])) (fun _ => ⟨rfl, rfl⟩) hx
  | apply f clos args =>
    obtain ⟨rfl, rfl⟩ := Prod.mk.inj (Option.some.inj ht)
    obtain ⟨binds, xs, s₁, hr, hp⟩ := transActualKFncArgs_packs hz
    rw [transTransfer, run_bind hr] at hx
    obtain ⟨hres, rfl⟩ := Prod.mk.inj hx
    obtain ⟨rfl, rfl⟩ := Prod.mk.inj hres
    have hlayout : layout T (fun z => old z.arg) zs = layout T (fun z => old z.param) zs := by
      have hregs : ∀ z ∈ zs, regsTyNonUniformArg (old z.arg) = regsTyNonUniformArg (old z.param) :=
        fun z hz' => regs_of_sameRaw (hz z hz').2.2
      rw [layout, layout, regs_congr hregs]
      exact split_congr hregs _ _
    rw [hlayout] at hp
    exact ⟨xs, rfl, hp⟩
  | _ => cases ht

/-- What an entry takes. -/
theorem transConvention_unpacks {s s' : Types} {c c' : Convention} {unpack : List Exp} {formals : List Var}
    (hx : transConvention T old c (zs.map Passed.param) s = ((c', unpack, formals), s')) (hz : ParamsOk T old s zs)
    (hnd : (zs.map Passed.param).Nodup) :
    c' = c ∧ Unpacks s s' (passedOrder T old c.passing zs) formals unpack
      (transTyArgs T c.passing (zs.map fun z => old z.param)) (passedVals T old c.passing zs) := by
  cases c with
  | stdFunc | stdCont =>
    obtain ⟨x, binds, s₁, hr, hp⟩ := transFormalStdArgs_unpacks hz hnd
    rw [transConvention, run_bind hr] at hx
    obtain ⟨hres, rfl⟩ := Prod.mk.inj hx
    cases hres
    exact ⟨rfl, hp⟩
  | knownFunc clos =>
    obtain ⟨xs, binds, s₁, hr, hp⟩ := transFormalKFncArgs_unpacks hz hnd
    rw [transConvention, run_bind hr] at hx
    obtain ⟨hres, rfl⟩ := Prod.mk.inj hx
    cases hres
    exact ⟨rfl, hp⟩

/-- The register classes of what is passed depend on the classes before alone. -/
theorem regs_transTyArgs (p : Passing) (hraw : ∀ z ∈ zs, SameRaw (old z.arg) (old z.param)) :
    (transTyArgs T p (zs.map fun z => old z.arg)).map regsTyNonUniformArg =
      (transTyArgs T p (zs.map fun z => old z.param)).map regsTyNonUniformArg := by
  cases p with
  | std => simp only [transTyArgs, map_cons, map_nil, regs_transTyStdArgs]
  | known =>
    have hregs : ∀ z ∈ zs, regsTyNonUniformArg (old z.arg) = regsTyNonUniformArg (old z.param) :=
      fun z hz => regs_of_sameRaw (hraw z hz)
    have hlayout : layout T (fun z => old z.arg) zs = layout T (fun z => old z.param) zs := by
      rw [layout, layout, regs_congr hregs]
      exact split_congr hregs _ _
    have hspilled : ∀ {f g : Passed → Ty} (zs : List Passed),
        (spilledTys T (zs.map f)).map regsTyNonUniformArg = (spilledTys T (zs.map g)).map regsTyNonUniformArg := by
      intro f g zs
      cases zs with
      | nil => rfl
      | cons z zs => simp only [map_cons, spilledTys, map_nil, regs_transTyStdArgs]
    rw [transTyArgs, transTyArgs, transTyKFncArgs_eq, transTyKFncArgs_eq, hlayout, map_append, map_append,
      hspilled, map_map, map_map]
    congr 1
    refine map_congr_left ?_
    intro z hz
    have hz' : z ∈ zs := mem_passedOrder (T := T) (p := .known).mp (mem_append_left _ hz)
    simp only [comp, regs_transTyNonUniformArg]
    exact hregs z hz'

/-- A call and an entry of the same type, after the pass: `tys` are the argument types of the translated callee,
    `actuals` what the call passes after `pack`, and `formals` what the entry takes before `unpack`. -/
structure Agree (T : TargetSpec) (tys : List Ty) (args params actuals formals : List Var) (pack unpack : List Exp)
    (atCall atEntry : Types) : Prop where
  formalTys : formals.map atEntry.typeOf = tys
  classes : actuals.map (fun x => regsTyNonUniformArg (atCall.typeOf x)) = tys.map regsTyNonUniformArg
  gprs : (regsTyNonUniformArgs tys).gprs ≤ T.maxGPRArgs - 1
  fprs : (regsTyNonUniformArgs tys).fprs ≤ T.maxFPRArgs
  nodup : formals.Nodup
  rebinds : ∀ (env : Env) (vals : List Val), args.map env = vals.map some →
    ∃ (env' : Env) (passed : List Val), evalExps env pack = some env' ∧ actuals.map env' = passed.map some ∧
      ∀ entry : Env, formals.map entry = passed.map some →
        ∃ entry', evalExps entry unpack = some entry' ∧ params.map entry' = vals.map some ∧
          ∀ y, y ∉ params → entry' y = entry y

/-- Variables that the pass has not made, with their translated types. -/
def Translated (T : TargetSpec) (old : Var → Ty) (s : Types) (xs : List Var) : Prop :=
  ∀ x ∈ xs, x.stamp < s.next ∧ s.typeOf x = transTy T (old x)

theorem exists_passed {params args : List Var} {vals : List Val} (h : params.length = args.length)
    (h' : args.length = vals.length) :
    ∃ zs : List Passed, zs.map Passed.param = params ∧ zs.map Passed.arg = args ∧ zs.map Passed.val = vals := by
  induction params generalizing args vals with
  | nil =>
    obtain rfl := List.length_eq_zero_iff.mp h.symm
    obtain rfl := List.length_eq_zero_iff.mp h'.symm
    exact ⟨[], rfl, rfl, rfl⟩
  | cons p params ih =>
    obtain ⟨a, args, rfl⟩ := List.exists_cons_of_length_eq_add_one h.symm
    obtain ⟨v, vals, rfl⟩ := List.exists_cons_of_length_eq_add_one h'.symm
    obtain ⟨zs, rfl, rfl, rfl⟩ := ih (Nat.succ.inj h) (Nat.succ.inj h')
    exact ⟨⟨p, a, v⟩ :: zs, rfl, rfl, rfl⟩

/-- The translated type of a function, the code of its entry and the code of a call of it agree. -/
theorem call_agrees (T : TargetSpec) (old : Var → Ty) {fty : Ty} {c : Convention} {t : Transfer} {params args : List Var}
    (hc : fty.callee = some (c.passing, params.map old)) (ht : t.call = some (c.passing, args))
    (hargs : List.Forall₂ SameRaw (args.map old) (params.map old)) (hnd : params.Nodup)
    {atCall atEntry : Types} (hcall : Translated T old atCall args) (hentry : Translated T old atEntry params) :
    ∃ tys actuals formals pack unpack t' atCall' atEntry',
      (transTy T fty).callee = some (c.passing, tys) ∧
      transTransfer T old t atCall = ((pack, t'), atCall') ∧ t'.call = some (c.passing, actuals) ∧
      transConvention T old c params atEntry = ((c, unpack, formals), atEntry') ∧
      (args.map old = params.map old → actuals.map atCall'.typeOf = tys) ∧
      Agree T tys args params actuals formals pack unpack atCall' atEntry' := by
  have hlen : params.length = args.length := by
    have := hargs.length_eq
    simpa using this.symm
  have argsOk : ∀ zs : List Passed, zs.map Passed.param = params → zs.map Passed.arg = args →
      ArgsOk T old atCall zs := by
    rintro zs rfl rfl z hz
    obtain ⟨hlt, hty⟩ := hcall z.arg (List.mem_map_of_mem hz)
    simp_all
  have paramsOk : ∀ zs : List Passed, zs.map Passed.param = params → ParamsOk T old atEntry zs := by
    rintro zs rfl z hz
    exact hentry z.param (List.mem_map_of_mem hz)
  -- the generated code does not depend on the values
  obtain ⟨zs, hp, ha, -⟩ := exists_passed hlen (List.length_map fun _ => Val.lit (.enum 0)).symm
  cases hx : transTransfer T old t atCall with
  | mk r atCall' =>
  obtain ⟨pack, t'⟩ := r
  cases he : transConvention T old c params atEntry with
  | mk r atEntry' =>
  obtain ⟨c', unpack, formals⟩ := r
  obtain ⟨actuals, ht', hpack⟩ := transTransfer_packs (ha ▸ ht) hx (argsOk zs hp ha)
  obtain ⟨rfl, hunpack⟩ := transConvention_unpacks (hp ▸ he) (paramsOk zs hp) (hp ▸ hnd)
  have hptys : (zs.map fun z => old z.param) = params.map old := by rw [← hp, map_map]; rfl
  have hatys : (zs.map fun z => old z.arg) = args.map old := by rw [← ha, map_map]; rfl
  have hle := transTyArgs_le T c'.passing (params.map old)
  refine ⟨_, actuals, formals, pack, unpack, t', atCall', atEntry', callee_transTy T hc, rfl, ht', rfl, ?_, ?_⟩
  · intro hsame
    rw [hpack.types, hatys, hsame]
  · refine ⟨?_, ?_, hle.1, hle.2, hunpack.nodup, ?_⟩
    · rw [hunpack.types, hptys]
    · have hregs := regs_transTyArgs (T := T) c'.passing fun z hz => (argsOk zs hp ha z hz).2.2
      rw [hptys, ← hpack.types, map_map] at hregs
      exact hregs
    · intro env vals hv
      have hlen' : args.length = vals.length := by simpa using congrArg length hv
      obtain ⟨zs, hp, ha, hvals⟩ := exists_passed hlen hlen'
      obtain ⟨actuals', ht'', hpack⟩ := transTransfer_packs (ha ▸ ht) hx (argsOk zs hp ha)
      obtain ⟨-, hunpack⟩ := transConvention_unpacks (hp ▸ he) (paramsOk zs hp) (hp ▸ hnd)
      rw [ht'] at ht''
      obtain ⟨-, rfl⟩ := Prod.mk.inj (Option.some.inj ht'')
      obtain ⟨env', hr, hpv, -⟩ := hpack.runs env (by
        grind [List.map_inj_left, mem_passedOrder])
      refine ⟨env', passedVals T old c'.passing zs, hr, hpv, ?_⟩
      intro entry hentry'
      obtain ⟨entry', hr', hpv', hf⟩ := hunpack.runs entry hentry'
      refine ⟨entry', hr', ?_, ?_⟩
      · rw [← hp, ← hvals, map_map, map_map]
        exact map_congr_left fun z hz => hpv' z (mem_passedOrder.mpr hz)
      grind [mem_passedOrder]

/-- The `x86_64` targets. -/
def x86_64 : TargetSpec := ⟨8, 6, by decide⟩

/-- Variables of vectors. -/
def vectors : Types := ⟨4, fun _ => transTy x86_64 (.raw .vec128)⟩

/-- A known function of a vector. -/
theorem vector_call_agrees : ∃ tys actuals formals pack unpack t' atCall' atEntry',
    (transTy x86_64 (.knownFunc .any [.raw .vec128])).callee = some (.known, tys) ∧
      transTransfer x86_64 (fun _ => .raw .vec128) (.apply ⟨1⟩ ⟨0⟩ [⟨2⟩]) vectors = ((pack, t'), atCall') ∧
      t'.call = some (.known, actuals) ∧
      transConvention x86_64 (fun _ => .raw .vec128) (.knownFunc ⟨0⟩) [⟨3⟩] vectors =
        ((.knownFunc ⟨0⟩, unpack, formals), atEntry') ∧
      ([.raw .vec128] = [Ty.raw .vec128] → actuals.map atCall'.typeOf = tys) ∧
      Agree x86_64 tys [⟨2⟩] [⟨3⟩] actuals formals pack unpack atCall' atEntry' :=
  have older : ∀ n < 4, Translated x86_64 (fun _ => .raw .vec128) vectors [⟨n⟩] := by
    intro n hn x hx
    obtain rfl := mem_singleton.mp hx
    exact ⟨hn, rfl⟩
  have same : SameRaw (.raw .vec128) (.raw .vec128) := rfl
  @call_agrees x86_64 (fun _ => .raw .vec128) (.knownFunc .any [.raw .vec128]) (.knownFunc ⟨0⟩) (.apply ⟨1⟩ ⟨0⟩ [⟨2⟩])
    [⟨3⟩] [⟨2⟩] rfl rfl (.cons same .nil) (by decide) vectors vectors (older 2 (by decide)) (older 3 (by decide))

end Calls

end Manticore.Cfg.ImplementCalls

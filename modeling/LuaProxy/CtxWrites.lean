import LuaProxy.Context

/-! What a list of `ctx` calls leaves in each field of a context: the last call that writes
to it decides, and a field no call writes stays. -/
namespace LuaProxy.CtxWrites
open Text Context

section Last
variable {α γ : Type}

def lastSome (f : γ → Option α) (xs : List γ) : Option α := xs.reverse.findSome? f

@[simp] theorem lastSome_nil (f : γ → Option α) : lastSome f [] = none := rfl

theorem lastSome_append (f : γ → Option α) (xs ys : List γ) :
    lastSome f (xs ++ ys) = (lastSome f ys).or (lastSome f xs) := by
  simp [lastSome]

theorem lastSome_cons (f : γ → Option α) (x : γ) (xs : List γ) :
    lastSome f (x :: xs) = (lastSome f xs).or (f x) := by
  have h := lastSome_append f [x] xs
  have hx : lastSome f [x] = f x := by
    simp only [lastSome, List.reverse_singleton, List.findSome?_cons, List.findSome?_nil]
    cases f x <;> rfl
  rw [hx] at h
  exact h

theorem lastSome_eq_none {f : γ → Option α} {xs : List γ} (h : ∀ x ∈ xs, f x = none) :
    lastSome f xs = none := by
  induction xs with
  | nil => rfl
  | cons x xs ih =>
    rw [lastSome_cons, ih fun y hy => h y (by simp [hy]), h x (by simp)]
    rfl

theorem foldl_last {σ : Type} {step : σ → γ → σ} {f : γ → Option α} (look : σ → Option α)
    (hstep : ∀ s x, look (step s x) = (f x).or (look s)) (s : σ) (xs : List γ) :
    look (xs.foldl step s) = (lastSome f xs).or (look s) := by
  induction xs generalizing s with
  | nil => rfl
  | cons x xs ih => rw [List.foldl_cons, ih, hstep, lastSome_cons, Option.or_assoc]

end Last

section Fields
variable (host : Host)

/-- The rejection a call asks for. -/
def rejection : CtxCall → Option (UInt16 × String)
  | .reject status msg => some (status, msg)
  | _ => none

/-- The value a call gives a request header. -/
def reqWrite (h : String) : CtxCall → Option String
  | .setReqHeader k v => if host.toLowercase k = h then some v else none
  | _ => none

/-- The value a call gives a response header. -/
def resWrite (h : String) : CtxCall → Option String
  | .setResHeader k v => if host.toLowercase k = h then some v else none
  | _ => none

/-- The value a call gives a variable. -/
def varWrite (k : String) : CtxCall → Option String
  | .setVar k' v => if k' = k then some v else none
  | .upstream name => if "__upstream__" = k then some name else none
  | _ => none

variable {host}

theorem runAll_keeps {α : Type} (look : RequestCtx → α)
    (hstep : ∀ ctx c, look (CtxCall.run host ctx c) = look ctx) (ctx : RequestCtx)
    (calls : List CtxCall) : look (CtxCall.runAll host ctx calls) = look ctx := by
  induction calls generalizing ctx with
  | nil => rfl
  | cons c cs ih => rw [CtxCall.runAll_cons, ih, hstep]

theorem lookup_insert_or {m : HashMap String} (k h v : String) :
    (m.insert k v).lookup h = (if k = h then some v else none).or (m.lookup h) := by
  by_cases hk : k = h
  · subst hk
    simp
  · have hk' : h ≠ k := fun e => hk e.symm
    simp [AList.lookup_insert_ne hk', hk]

theorem runAll_rejection (ctx : RequestCtx) (calls : List CtxCall) :
    (CtxCall.runAll host ctx calls).rejected = (lastSome rejection calls).or ctx.rejected := by
  refine foldl_last RequestCtx.rejected (fun ctx c => ?_) ctx calls
  cases c <;> rfl

theorem runAll_reqHeader (h : String) (ctx : RequestCtx) (calls : List CtxCall) :
    (CtxCall.runAll host ctx calls).reqHeaders.lookup h =
      (lastSome (reqWrite host h) calls).or (ctx.reqHeaders.lookup h) := by
  refine foldl_last (fun ctx : RequestCtx => ctx.reqHeaders.lookup h) (fun ctx c => ?_) ctx calls
  cases c with
  | setReqHeader k v => exact lookup_insert_or (host.toLowercase k) h v
  | _ => rfl

theorem runAll_resHeader (h : String) (ctx : RequestCtx) (calls : List CtxCall) :
    (CtxCall.runAll host ctx calls).resHeaders.lookup h =
      (lastSome (resWrite host h) calls).or (ctx.resHeaders.lookup h) := by
  refine foldl_last (fun ctx : RequestCtx => ctx.resHeaders.lookup h) (fun ctx c => ?_) ctx calls
  cases c with
  | setResHeader k v => exact lookup_insert_or (host.toLowercase k) h v
  | _ => rfl

theorem runAll_resBody (ctx : RequestCtx) (calls : List CtxCall) :
    (CtxCall.runAll host ctx calls).resBody = ctx.resBody := by
  refine runAll_keeps RequestCtx.resBody (fun ctx c => ?_) ctx calls
  cases c <;> rfl

theorem runAll_reqPath (ctx : RequestCtx) (calls : List CtxCall) :
    (CtxCall.runAll host ctx calls).reqPath = ctx.reqPath := by
  refine runAll_keeps RequestCtx.reqPath (fun ctx c => ?_) ctx calls
  cases c <;> rfl

theorem runAll_getVar (k : String) (ctx : RequestCtx) (calls : List CtxCall) :
    (CtxCall.runAll host ctx calls).getVar k = (lastSome (varWrite k) calls).or (ctx.getVar k) := by
  refine foldl_last (fun ctx : RequestCtx => ctx.getVar k) (fun ctx c => ?_) ctx calls
  cases c with
  | setVar k' v => exact lookup_insert_or k' k v
  | upstream name => exact lookup_insert_or "__upstream__" k name
  | _ => rfl

end Fields

end LuaProxy.CtxWrites

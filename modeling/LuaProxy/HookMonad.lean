import LuaProxy.Context

/-! Running Lua code of a plugin. The engine keeps one VM for each connection: its
global table, of which the engine itself reads the four hook names, and everything
else that survives a run (`Heap`). Chunks and hooks run in `HookM`: a run makes `ctx`
calls, assigns hook globals, changes the heap, and returns or raises. What it did before
it raises stays done. -/
namespace LuaProxy.HookMonad
open Text Lua Context

inductive Hook
  | onRequest
  | onRoute
  | onTransform
  | onResponse
  deriving DecidableEq, Repr

structure Vm (Fn Heap : Type) where
  /-- The function a hook's name is bound to in the globals, if it is one. -/
  global : Hook → Option Fn
  heap : Heap

/-- One run of a chunk or a hook function. -/
structure Ran (Fn Heap α : Type) where
  calls : List CtxCall
  assigned : Hook → Option (Option Fn)
  heap : Heap
  result : Except LuaError α

/-- The VM a run leaves behind. -/
def Ran.vm {Fn Heap α : Type} (r : Ran Fn Heap α) (before : Vm Fn Heap) : Vm Fn Heap where
  global hook := (r.assigned hook).getD (before.global hook)
  heap := r.heap

def HookM (_ : Host) (Fn Heap α : Type) : Type := Vm Fn Heap → RequestCtx → Ran Fn Heap α

namespace HookM
variable {host : Host} {Fn Heap α β : Type}

def pure (a : α) : HookM host Fn Heap α := fun vm _ => ⟨[], fun _ => none, vm.heap, .ok a⟩

/-- `error(e)` -/
def raise (e : LuaError) : HookM host Fn Heap α := fun vm _ =>
  ⟨[], fun _ => none, vm.heap, .error e⟩

def bind (m : HookM host Fn Heap α) (f : α → HookM host Fn Heap β) : HookM host Fn Heap β :=
  fun vm ctx =>
    let r := m vm ctx
    match r.result with
    | .error e => ⟨r.calls, r.assigned, r.heap, .error e⟩
    | .ok a =>
      let s := f a (r.vm vm) (CtxCall.runAll host ctx r.calls)
      ⟨r.calls ++ s.calls, fun hook => (s.assigned hook).or (r.assigned hook), s.heap, s.result⟩

instance : Monad (HookM host Fn Heap) where
  pure := pure
  bind := bind

def call (c : CtxCall) : HookM host Fn Heap Unit := fun vm _ =>
  ⟨[c], fun _ => none, vm.heap, .ok ()⟩

def read (f : RequestCtx → α) : HookM host Fn Heap α := fun vm ctx =>
  ⟨[], fun _ => none, vm.heap, .ok (f ctx)⟩

/-- `function on_request(ctx) ... end` and the like: bind a hook's global name. -/
def define (hook : Hook) (fn : Fn) : HookM host Fn Heap Unit := fun vm _ =>
  ⟨[], fun h => if h = hook then some (some fn) else none, vm.heap, .ok ()⟩

/-- A step on the heap alone, which may raise. -/
def onHeap (f : Heap → Except LuaError α × Heap) : HookM host Fn Heap α := fun vm _ =>
  ⟨[], fun _ => none, (f vm.heap).2, (f vm.heap).1⟩

/-- A computation without effects, which may raise. -/
def ofExcept (r : Except LuaError α) : HookM host Fn Heap α := fun vm _ =>
  ⟨[], fun _ => none, vm.heap, r⟩

end HookM

/-- `String: FromLua`: strings must be UTF-8, numbers are converted, all else is refused. -/
def toRustString (host : Host) : Value → Except LuaError String
  | .str s =>
    match fromUtf8 s with
    | some t => .ok t
    | none => .error "invalid utf-8 sequence"
  | .num (.int n) => .ok (toString n)
  | .num (.float d) => .ok (host.fmtFloat d)
  | _ => .error "expected string or number"

/-- `Option<String>: FromLua` -/
def toRustOption (host : Host) : Value → Except LuaError (Option String)
  | .nil => .ok none
  | v => (toRustString host v).map some

end LuaProxy.HookMonad

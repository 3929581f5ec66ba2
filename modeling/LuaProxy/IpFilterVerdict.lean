import LuaProxy.Plugins
import LuaProxy.Handler

/-! The verdict of `ip_filter.lua` on a request, for any contents of its two lists. It sees the
address that the handler takes from the headers or else from the socket. -/
namespace LuaProxy.IpFilterVerdict
open Text Lua Context HookMonad Handler Plugins

section Hook
variable (host : Host) (blocklist allowlist : List Bytes)

def ipFilterOf : PluginM host Value := do
  let ip ← HookM.read fun ctx => utf8 ctx.clientIp
  if blocklist.length > 0 && ipMatches ip blocklist then
    HookM.call (.reject 403 "Forbidden: your IP is blocked")
  else if allowlist.length > 0 && !ipMatches ip allowlist then
    HookM.call (.reject 403 "Forbidden: IP not allowed")
  return .nil

theorem ipFilter_eq : ipFilter host = ipFilterOf host Plugins.blocklist Plugins.allowlist := rfl

/-- An entry names an address, or with a trailing `*` all addresses that start so. -/
def Matches (pattern ip : Bytes) : Prop := ip = pattern ∨ ∃ pre, pattern = pre ++ [42] ∧ pre <+: ip

def Denied (ip : Bytes) : Prop :=
  (∃ pattern ∈ blocklist, Matches pattern ip) ∨
    allowlist ≠ [] ∧ ∀ pattern ∈ allowlist, ¬ Matches pattern ip

def Rejects (vm : Vm Closure Heap) (peer : String) (req : Request) (body : Bytes) : Prop :=
  (CtxCall.runAll host (requestCtx host req peer body)
    (ipFilterOf host blocklist allowlist vm (requestCtx host req peer body)).calls).isRejected

variable {host blocklist allowlist}

theorem ipMatches_iff {ip : Bytes} {list : List Bytes} :
    ipMatches ip list = true ↔ ∃ pattern ∈ list, Matches pattern ip := by
  have hstar : ∀ pattern : Bytes, (pattern.getLast? = some 42 ∧ pattern.dropLast <+: ip) ↔
      ∃ pre, pattern = pre ++ [42] ∧ pre <+: ip := by
    intro pattern
    constructor
    · rintro ⟨hlast, hpre⟩
      exact ⟨pattern.dropLast, (List.dropLast_append_getLast? 42 hlast).symm, hpre⟩
    · rintro ⟨pre, rfl, hpre⟩
      simpa using hpre
  simp only [ipMatches, List.any_eq_true, Bool.or_eq_true, Bool.and_eq_true, beq_iff_eq,
    List.isPrefixOf_iff_prefix, hstar, Matches]

theorem requestCtx_clientIp (req : Request) (peer : String) (body : Bytes) :
    (requestCtx host req peer body).clientIp = clientAddress (headerMap host req.headers) peer := rfl

theorem ipFilterOf_rejects (vm : Vm Closure Heap) (ctx : RequestCtx) :
    (ipFilterOf host blocklist allowlist vm ctx).calls.any CtxCall.isReject =
      ((blocklist.length > 0 && ipMatches (utf8 ctx.clientIp) blocklist) ||
        (allowlist.length > 0 && !ipMatches (utf8 ctx.clientIp) allowlist)) := by
  simp only [ipFilterOf, bind, HookM.bind, HookM.read]
  generalize (decide (blocklist.length > 0) && ipMatches (utf8 ctx.clientIp) blocklist) = blocked
  generalize (decide (allowlist.length > 0) && !ipMatches (utf8 ctx.clientIp) allowlist) = outside
  cases blocked with
  | true => rfl
  | false => cases outside <;> rfl

theorem rejects_iff (vm : Vm Closure Heap) (peer : String) (req : Request) (body : Bytes) :
    Rejects host blocklist allowlist vm peer req body ↔
      Denied blocklist allowlist (utf8 (clientAddress (headerMap host req.headers) peer)) := by
  have hstart : (requestCtx host req peer body).isRejected = false := rfl
  rw [Rejects, CtxCall.runAll_rejected, hstart, Bool.false_or, ipFilterOf_rejects, requestCtx_clientIp]
  generalize utf8 (clientAddress (headerMap host req.headers) peer) = ip
  have hblocked : (decide (blocklist.length > 0) && ipMatches ip blocklist) = ipMatches ip blocklist := by
    cases blocklist <;> simp [ipMatches]
  rw [hblocked, Bool.or_eq_true, Bool.and_eq_true, Bool.not_eq_true', ← Bool.not_eq_true,
    ipMatches_iff, ipMatches_iff, decide_eq_true_eq, gt_iff_lt, List.length_pos_iff, Denied]
  push Not
  rfl

theorem exists_separating {ip ip' : Bytes} (h : ip ≠ ip') :
    ∃ pattern, ¬ (Matches pattern ip ↔ Matches pattern ip') := by
  have hext : ∀ a b : Bytes, ¬ a <+: b → ¬ (Matches (a ++ [42]) a ↔ Matches (a ++ [42]) b) := by
    intro a b hab hiff
    rcases hiff.mp (Or.inr ⟨a, rfl, List.prefix_refl a⟩) with rfl | ⟨pre, heq, hpre⟩
    · exact hab (List.prefix_append _ _)
    · obtain rfl := List.append_cancel_right heq
      exact hab hpre
  by_cases hp : ip <+: ip'
  · have hnot : ¬ ip' <+: ip := fun hp' => h (hp.eq_of_length_le hp'.length_le)
    exact ⟨ip' ++ [42], fun hiff => hext ip' ip hnot hiff.symm⟩
  · exact ⟨ip ++ [42], hext ip ip' hp⟩

end Hook

section Verdict

def SameButHeaders (req req' : Request) : Prop := { req with headers := req'.headers } = req'

/-- The headers of a request cannot change the verdict on its peer. -/
def HeaderBlind : Prop :=
  ∀ (host : Host) (blocklist allowlist : List Bytes) (vm vm' : Vm Closure Heap) (peer : String)
    (req req' : Request) (body : Bytes), SameButHeaders req req' →
      (Rejects host blocklist allowlist vm peer req body ↔
        Rejects host blocklist allowlist vm' peer req' body)

/-- The verdict is on the address: the filter rejects the addresses that its lists deny, and two
requests get the same verdict under all lists exactly if they have the same address. -/
theorem verdict_by_address (host : Host) (vm vm' : Vm Closure Heap) (peer peer' : String)
    (req req' : Request) (body body' : Bytes) :
    (∀ blocklist allowlist, Rejects host blocklist allowlist vm peer req body ↔
      Denied blocklist allowlist (utf8 (clientAddress (headerMap host req.headers) peer))) ∧
    ((∀ blocklist allowlist, Rejects host blocklist allowlist vm peer req body ↔
        Rejects host blocklist allowlist vm' peer' req' body') ↔
      clientAddress (headerMap host req.headers) peer =
        clientAddress (headerMap host req'.headers) peer') := by
  refine ⟨fun _ _ => rejects_iff vm peer req body, fun h => ?_, fun h blocklist allowlist => ?_⟩
  · by_contra hne
    have hbytes : utf8 (clientAddress (headerMap host req.headers) peer) ≠
        utf8 (clientAddress (headerMap host req'.headers) peer') := fun he => hne (utf8_injective he)
    obtain ⟨pattern, hpattern⟩ := exists_separating hbytes
    have hsame := h [pattern] []
    rw [rejects_iff, rejects_iff] at hsame
    exact hpattern (by simpa [Denied] using hsame)
  · rw [rejects_iff, rejects_iff, h]

def bareVm : Vm Closure Heap := ⟨fun _ => none, ⟨[], fun _ => 0, fun _ => "", fun _ => false⟩⟩

def peerRequest (headers : List (String × Bytes)) : Request := ⟨"GET", "/", none, headers, .ok []⟩

/-- A blocked peer passes with an `x-real-ip` of its choice. -/
theorem spoofed_address : ¬ HeaderBlind := by
  intro h
  have hblind := h Host.plain [utf8 "10.0.0.9"] [] bareVm bareVm "10.0.0.9" (peerRequest [])
    (peerRequest [("x-real-ip", utf8 "10.0.0.1")]) [] rfl
  revert hblind
  unfold Rejects
  decide +kernel

end Verdict

end LuaProxy.IpFilterVerdict

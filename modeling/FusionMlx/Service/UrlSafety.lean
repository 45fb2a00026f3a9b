import Mathlib.Data.List.Basic
import Mathlib.Algebra.Group.Nat.Defs

/-!
# The outbound fetch guard

An address is refused when it lies in one of the listed networks or one of the
library's classes. A host is refused when any of its answers is. A fetch
validates every hop and connects to the first address that was validated.
-/
namespace FusionMlx.UrlSafety

inductive Addr where
  | v4 (n : Fin (2 ^ 32))
  | v6 (n : Fin (2 ^ 128))
  deriving DecidableEq

structure Network where
  base : Nat
  prefixLen : Nat

def Network.has (bits : Nat) (net : Network) (n : Nat) : Bool :=
  n / 2 ^ (bits - net.prefixLen) == net.base / 2 ^ (bits - net.prefixLen)

def dotted (a b c d : Nat) : Nat := ((a * 256 + b) * 256 + c) * 256 + d

def loopback4 : Network := ⟨dotted 127 0 0 0, 8⟩

def linkLocal4 : Network := ⟨dotted 169 254 0 0, 16⟩

def reserved4 : Network := ⟨dotted 240 0 0 0, 4⟩

def thisNetwork4 : Network := ⟨0, 8⟩

def privateNetworks4 : List Network :=
  [⟨dotted 10 0 0 0, 8⟩, ⟨dotted 172 16 0 0, 12⟩, ⟨dotted 192 168 0 0, 16⟩, linkLocal4, loopback4]

def loopback6 : Network := ⟨1, 128⟩

def uniqueLocal6 : Network := ⟨0xfc * 2 ^ 120, 7⟩

def linkLocal6 : Network := ⟨0xfe80 * 2 ^ 112, 10⟩

def privateNetworks6 : List Network := [loopback6, uniqueLocal6, linkLocal6]

def reservedNetworks6 : List Network :=
  [⟨0, 8⟩, ⟨0x01 * 2 ^ 120, 8⟩, ⟨0x02 * 2 ^ 120, 7⟩, ⟨0x04 * 2 ^ 120, 6⟩, ⟨0x08 * 2 ^ 120, 5⟩, ⟨0x10 * 2 ^ 120, 4⟩,
    ⟨0x40 * 2 ^ 120, 3⟩, ⟨0x60 * 2 ^ 120, 3⟩, ⟨0x80 * 2 ^ 120, 3⟩, ⟨0xa0 * 2 ^ 120, 3⟩, ⟨0xc0 * 2 ^ 120, 3⟩,
    ⟨0xe0 * 2 ^ 120, 4⟩, ⟨0xf0 * 2 ^ 120, 5⟩, ⟨0xf8 * 2 ^ 120, 6⟩, ⟨0xfe * 2 ^ 120, 9⟩]

def ipv4Mapped (n : Fin (2 ^ 128)) : Option (Fin (2 ^ 32)) :=
  if n.val / 2 ^ 32 = 0xffff then some ⟨n.val % 2 ^ 32, Nat.mod_lt _ (Nat.two_pow_pos 32)⟩ else none

def isPrivateAddr4 (n : Fin (2 ^ 32)) : Bool :=
  privateNetworks4.any (fun net => net.has 32 n) || (loopback4.has 32 n || linkLocal4.has 32 n || reserved4.has 32 n)

/-- The three predicates of an IPv6 address. `delegates`: the library asks the mapped address, as it does from Python
3.13 on. -/
def classes6 (delegates : Bool) (n : Fin (2 ^ 128)) : Bool :=
  match delegates, ipv4Mapped n with
  | true, some m => loopback4.has 32 m || linkLocal4.has 32 m || reserved4.has 32 m
  | _, _ => loopback6.has 128 n || linkLocal6.has 128 n || reservedNetworks6.any (fun net => net.has 128 n)

def isPrivateAddr (delegates : Bool) : Addr → Bool
  | .v4 n => isPrivateAddr4 n
  | .v6 n =>
    privateNetworks6.any (fun net => net.has 128 n) || classes6 delegates n || ((ipv4Mapped n).map isPrivateAddr4).getD false

structure Url where
  scheme : String
  hostname : Option String
  portValid : Bool

inductive Reply where
  /-- The client refuses the URL, as that of an IPv6 address, which has no brackets. -/
  | unsent
  | failed
  | redirect (location : String)
  | response (contentLength : Option Nat)

/-- What the guard asks: the URL parser (none when it raises), the parser of addresses, the resolver at its `k`-th
call (none when it raises), and the server at an address behind the `k`-th call. -/
structure Env where
  delegates : Bool
  urlparse : String → Option Url
  ipAddress : String → Option Addr
  getaddrinfo : Nat → String → Option (List String)
  server : Nat → Addr → Reply

def blockedHostnames : List String := ["localhost", "metadata.google.internal", "metadata.google.internal."]

section Guard

variable (env : Env)

def hostOf (url : String) : Option String :=
  match env.urlparse url with
  | none => none
  | some parsed =>
    if parsed.scheme.toLower = "http" ∨ parsed.scheme.toLower = "https" then
      match parsed.hostname with
      | none => none
      | some hostname => if hostname = "" ∨ hostname.toLower ∈ blockedHostnames then none else some hostname
    else none

def isSafeUrl (url : String) : Option String :=
  match hostOf env url with
  | none => none
  | some hostname =>
    match env.ipAddress hostname with
    | some addr => if isPrivateAddr env.delegates addr then none else some hostname
    | none => some hostname

def validate : List String → Option (List Addr)
  | [] => some []
  | ip :: rest =>
    match env.ipAddress ip with
    | none => validate rest
    | some addr => if isPrivateAddr env.delegates addr then none else (validate rest).map (addr :: ·)

def resolveSafeIps (k : Nat) (url : String) : Option (List Addr) :=
  match isSafeUrl env url with
  | none => none
  | some hostname =>
    match env.ipAddress hostname with
    | some addr => if isPrivateAddr env.delegates addr then none else some [addr]
    | none =>
      match env.getaddrinfo k hostname with
      | none => none
      | some infos =>
        match validate env infos with
        | none => none
        | some [] => none
        | some (ip :: ips) => some (ip :: ips)

/-- What a fetch did: the calls of `resolve_safe_ips`, the connections with the call of their hop, and whether it
returned a response. -/
structure Trace where
  calls : List (Nat × String)
  connections : List (Nat × Addr)
  returned : Bool

/-- The hops of `safe_fetch_async`; every hop resolves its URL, and a redirect target is resolved once more before
the next hop. -/
def fetchHops (maxSize : Option Nat) : Nat → Nat → String → Trace
  | 0, _, _ => { calls := [], connections := [], returned := false }
  | hops + 1, k, current =>
    match resolveSafeIps env k current with
    | none | some [] => { calls := [(k, current)], connections := [], returned := false }
    | some (ip :: _) =>
      if ((env.urlparse current).map Url.portValid).getD false = false then
        { calls := [(k, current)], connections := [], returned := false }
      else
        match env.server k ip with
        | .unsent => { calls := [(k, current)], connections := [], returned := false }
        | .failed => { calls := [(k, current)], connections := [(k, ip)], returned := false }
        | .response contentLength =>
          let tooLarge := match maxSize, contentLength with
            | some size, some length => decide (size < length)
            | _, _ => false
          { calls := [(k, current)], connections := [(k, ip)], returned := !tooLarge }
        | .redirect location =>
          if location = "" then { calls := [(k, current)], connections := [(k, ip)], returned := false }
          else
            match resolveSafeIps env (k + 1) location with
            | none => { calls := [(k, current), (k + 1, location)], connections := [(k, ip)], returned := false }
            | some _ =>
              let rest := fetchHops maxSize hops (k + 2) location
              { calls := (k, current) :: (k + 1, location) :: rest.calls, connections := (k, ip) :: rest.connections,
                returned := rest.returned }

def safeFetchAsync (maxHops : Nat) (maxSize : Option Nat) (url : String) : Trace :=
  fetchHops env maxSize (maxHops + 1) 0 url

end Guard

def Internal4 (n : Fin (2 ^ 32)) : Prop := thisNetwork4.has 32 n ∨ privateNetworks4.any (fun net => net.has 32 n)

/-- Unspecified, loopback, link-local, unique-local, or mapped from an internal one. -/
def Internal : Addr → Prop
  | .v4 n => Internal4 n
  | .v6 n =>
    n.val = 0 ∨ loopback6.has 128 n ∨ linkLocal6.has 128 n ∨ uniqueLocal6.has 128 n ∨
      ∃ m, ipv4Mapped n = some m ∧ Internal4 m

/-- The internal addresses that no list of the guard has: this network, and mapped from it where the library asks the
mapped address. -/
def Unlisted (delegates : Bool) : Addr → Prop
  | .v4 n => thisNetwork4.has 32 n
  | .v6 n => delegates = true ∧ ∃ m, ipv4Mapped n = some m ∧ thisNetwork4.has 32 m

theorem private4_of_internal {n : Fin (2 ^ 32)} (h : Internal4 n) (hthis : ¬ thisNetwork4.has 32 n) :
    isPrivateAddr4 n = true := by
  rw [isPrivateAddr4, h.resolve_left hthis, Bool.true_or]

theorem not_private4_of_this {n : Fin (2 ^ 32)} (h : thisNetwork4.has 32 n) : isPrivateAddr4 n = false := by
  have hn : n.val / 2 ^ 24 = 0 := by simpa [thisNetwork4, Network.has] using h
  simp [isPrivateAddr4, privateNetworks4, loopback4, linkLocal4, reserved4, Network.has, dotted]
  omega

variable {n : Fin (2 ^ 128)}

theorem mapped_some {m : Fin (2 ^ 32)} (h : ipv4Mapped n = some m) : n.val / 2 ^ 32 = 0xffff := by
  unfold ipv4Mapped at h
  split at h
  · assumption
  · cases h

/-- A mapped address is in none of the IPv6 networks of the list. -/
theorem mapped_not_listed {m : Fin (2 ^ 32)} (h : ipv4Mapped n = some m) :
    loopback6.has 128 n = false ∧ linkLocal6.has 128 n = false ∧ uniqueLocal6.has 128 n = false := by
  have hn := mapped_some h
  refine ⟨?_, ?_, ?_⟩
  · simp [loopback6, Network.has]
    omega
  · simp [linkLocal6, Network.has]
    omega
  · simp [uniqueLocal6, Network.has]
    omega

theorem low_reserved (h : n.val / 2 ^ 120 = 0) : reservedNetworks6.any (fun net => net.has 128 n) = true := by
  have hlow : Network.has 128 ⟨0, 8⟩ n = true := decide_eq_true h
  rw [reservedNetworks6, List.any_cons, hlow, Bool.true_or]

/-- The guard lets an internal address through exactly when it is unlisted. -/
theorem unlisted_iff (delegates : Bool) (a : Addr) :
    Internal a ∧ isPrivateAddr delegates a = false ↔ Unlisted delegates a := by
  cases a with
  | v4 n =>
    constructor
    · rintro ⟨hinternal, hpass⟩
      by_contra hthis
      rw [isPrivateAddr, private4_of_internal hinternal hthis] at hpass
      cases hpass
    · intro hthis
      exact ⟨.inl hthis, not_private4_of_this hthis⟩
  | v6 n =>
    cases hmapped : ipv4Mapped n with
    | none =>
      refine iff_of_false ?_ (by rintro ⟨-, m, hm, -⟩; rw [hmapped] at hm; cases hm)
      rintro ⟨hinternal, hpass⟩
      simp only [isPrivateAddr, privateNetworks6, classes6, hmapped, List.any_cons, List.any_nil, Bool.or_eq_false_iff,
        Option.map_none, Option.getD_none] at hpass
      rcases hinternal with hzero | hlist | hlist | hlist | ⟨m, hm, -⟩
      · have hres := low_reserved (n := n) (by rw [hzero, Nat.zero_div])
        rw [hres] at hpass
        exact absurd hpass.1.2.2 (by decide)
      · rw [hlist] at hpass
        exact absurd hpass.1.1.1 (by decide)
      · rw [hlist] at hpass
        exact absurd hpass.1.2.1.2 (by decide)
      · rw [hlist] at hpass
        exact absurd hpass.1.1.2.1 (by decide)
      · rw [hmapped] at hm
        cases hm
    | some m =>
      obtain ⟨hl, hk, hu⟩ := mapped_not_listed hmapped
      have hlow : n.val / 2 ^ 120 = 0 := by
        have := mapped_some hmapped
        omega
      have hne : n.val ≠ 0 := by
        have := mapped_some hmapped
        omega
      have hinternal : Internal (.v6 n) ↔ Internal4 m := by
        simp [Internal, hl, hk, hu, hne, hmapped]
      have hunlisted : Unlisted delegates (.v6 n) ↔ delegates = true ∧ thisNetwork4.has 32 m := by
        simp [Unlisted, hmapped]
      rw [hinternal, hunlisted]
      cases delegates with
      | false =>
        refine iff_of_false ?_ (by rintro ⟨h, -⟩; cases h)
        rintro ⟨-, hpass⟩
        simp [isPrivateAddr, classes6, low_reserved hlow] at hpass
      | true =>
        have hclasses : isPrivateAddr true (.v6 n) = isPrivateAddr4 m := by
          simp [isPrivateAddr, classes6, hmapped, privateNetworks6, hl, hk, hu, isPrivateAddr4]
          exact .inr
        rw [hclasses]
        constructor
        · rintro ⟨hin, hpass⟩
          refine ⟨rfl, ?_⟩
          by_contra hthis
          rw [private4_of_internal hin hthis] at hpass
          cases hpass
        · rintro ⟨-, hthis⟩
          exact ⟨.inl hthis, not_private4_of_this hthis⟩

def candidates (env : Env) (k : Nat) (url : String) : List Addr :=
  match hostOf env url with
  | none => []
  | some hostname =>
    match env.ipAddress hostname with
    | some addr => [addr]
    | none => ((env.getaddrinfo k hostname).getD []).filterMap env.ipAddress

variable {env : Env} {k : Nat} {url : String}

theorem validate_eq (infos : List String) :
    validate env infos = if ∃ a ∈ infos.filterMap env.ipAddress, isPrivateAddr env.delegates a = true then none
      else some (infos.filterMap env.ipAddress) := by
  induction infos with
  | nil => simp [validate]
  | cons ip rest ih =>
    rw [validate]
    cases hip : env.ipAddress ip with
    | none =>
      rw [List.filterMap_cons_none hip]
      exact ih
    | some addr =>
      rw [List.filterMap_cons_some hip]
      cases hp : isPrivateAddr env.delegates addr with
      | true => simp [hp]
      | false =>
        simp only [ih, List.mem_cons, exists_eq_or_imp, hp, Bool.false_eq_true, false_or, if_false]
        split <;> simp_all

/-- A call accepts all its addresses when there are any and none of them is refused. -/
theorem resolveSafeIps_eq :
    resolveSafeIps env k url =
      if candidates env k url = [] ∨ ∃ a ∈ candidates env k url, isPrivateAddr env.delegates a = true then none
      else some (candidates env k url) := by
  unfold resolveSafeIps candidates isSafeUrl
  cases hostOf env url with
  | none => simp
  | some hostname =>
    dsimp only
    obtain hip | ⟨addr, hip⟩ := Option.eq_none_or_eq_some (env.ipAddress hostname)
    · simp only [hip]
      cases env.getaddrinfo k hostname with
      | none => simp
      | some infos =>
        dsimp only
        rw [validate_eq, Option.getD_some]
        generalize infos.filterMap env.ipAddress = as
        by_cases hp : ∃ a ∈ as, isPrivateAddr env.delegates a = true
        · rw [if_pos hp, if_pos (.inr hp)]
        · rw [if_neg hp]
          cases as with
          | nil => simp
          | cons a as => rw [if_neg (by simpa using hp)]
    · cases hp : isPrivateAddr env.delegates addr <;> simp [hp, hip]

/-- A call accepts no internal address, and refuses when one of its addresses is internal. -/
def Guards (env : Env) (k : Nat) (url : String) : Prop :=
  (∀ ips, resolveSafeIps env k url = some ips → ∀ a ∈ ips, ¬ Internal a) ∧
    ((∃ a ∈ candidates env k url, Internal a) → resolveSafeIps env k url = none)

/-- None of the addresses is unlisted, or one of them is refused anyway. -/
def Listed (env : Env) (k : Nat) (url : String) : Prop :=
  (∃ a ∈ candidates env k url, isPrivateAddr env.delegates a = true) ∨
    ∀ a ∈ candidates env k url, ¬ Unlisted env.delegates a

theorem guards_iff (env : Env) (k : Nat) (url : String) : Guards env k url ↔ Listed env k url := by
  unfold Guards Listed
  rw [resolveSafeIps_eq]
  by_cases hrefused : ∃ a ∈ candidates env k url, isPrivateAddr env.delegates a = true
  · rw [if_pos (.inr hrefused)]
    exact iff_of_true ⟨nofun, fun _ => rfl⟩ (.inl hrefused)
  · have hpass : ∀ a ∈ candidates env k url, isPrivateAddr env.delegates a = false := by
      intro a ha
      by_contra hp
      exact hrefused ⟨a, ha, by simpa using hp⟩
    constructor
    · rintro ⟨-, hreject⟩
      refine .inr (fun a ha hun => ?_)
      have hnone := hreject ⟨a, ha, ((unlisted_iff _ a).2 hun).1⟩
      rw [if_neg (by rw [not_or]; exact ⟨List.ne_nil_of_mem ha, hrefused⟩)] at hnone
      cases hnone
    · intro hlisted
      have hsafe : ∀ a ∈ candidates env k url, ¬ Internal a := by
        intro a ha hin
        exact hlisted.resolve_left hrefused a ha ((unlisted_iff _ a).1 ⟨hin, hpass a ha⟩)
      refine ⟨fun ips hips a ha => ?_, fun ⟨a, ha, hin⟩ => absurd hin (hsafe a ha)⟩
      split at hips
      · cases hips
      · cases hips
        exact hsafe a ha

def Validated (env : Env) (t : Trace) : Prop :=
  ∀ c ∈ t.connections, ∃ url ips, (c.1, url) ∈ t.calls ∧ resolveSafeIps env c.1 url = some ips ∧ c.2 ∈ ips

/-- A hop: what it does before the rest, if there is a rest. -/
theorem fetchHops_spec (env : Env) (maxSize : Option Nat) (hops k : Nat) (url : String) :
    (fetchHops env maxSize hops k url).connections.length ≤ hops ∧ Validated env (fetchHops env maxSize hops k url) := by
  induction hops generalizing k url with
  | zero => exact ⟨Nat.le_refl 0, nofun⟩
  | succ hops ih =>
    have hone : ∀ {ip ips calls returned}, resolveSafeIps env k url = some (ip :: ips) → (k, url) ∈ calls →
        Validated env { calls := calls, connections := [(k, ip)], returned := returned } := by
      intro ip ips calls returned hips hmem c hc
      obtain rfl := List.mem_singleton.1 hc
      exact ⟨url, _, hmem, hips, List.mem_cons_self ..⟩
    rw [fetchHops]
    cases hips : resolveSafeIps env k url with
    | none => exact ⟨Nat.zero_le _, nofun⟩
    | some ips =>
      cases ips with
      | nil => exact ⟨Nat.zero_le _, nofun⟩
      | cons ip ips =>
        dsimp only
        split
        · exact ⟨Nat.zero_le _, nofun⟩
        · cases env.server k ip with
          | unsent => exact ⟨Nat.zero_le _, nofun⟩
          | failed => exact ⟨Nat.le_add_left .., hone hips (List.mem_cons_self ..)⟩
          | response contentLength => exact ⟨Nat.le_add_left .., hone hips (List.mem_cons_self ..)⟩
          | redirect location =>
            dsimp only
            split
            · exact ⟨Nat.le_add_left .., hone hips (List.mem_cons_self ..)⟩
            · cases resolveSafeIps env (k + 1) location with
              | none => exact ⟨Nat.le_add_left .., hone hips (List.mem_cons_self ..)⟩
              | some more =>
                obtain ⟨hlen, hval⟩ := ih (k + 2) location
                refine ⟨Nat.succ_le_succ hlen, fun c hc => ?_⟩
                rcases List.mem_cons.1 hc with rfl | hc
                · exact ⟨url, _, List.mem_cons_self .., hips, List.mem_cons_self ..⟩
                · obtain ⟨url', ips', hmem, hres⟩ := hval c hc
                  exact ⟨url', ips', List.mem_cons_of_mem _ (List.mem_cons_of_mem _ hmem), hres⟩

/-- What a fetch must keep to: at most one connection a hop, each to an address accepted in its hop, none of them
internal, and every call of the guard guards. -/
def KeepsOut (env : Env) (maxHops : Nat) (t : Trace) : Prop :=
  t.connections.length ≤ maxHops + 1 ∧ Validated env t ∧ (∀ c ∈ t.connections, ¬ Internal c.2) ∧
    ∀ call ∈ t.calls, Guards env call.1 call.2

/-- Every call of the guard accepts no internal address exactly when its addresses are listed, and a fetch keeps out
of internal addresses exactly when this holds in each of its calls. -/
theorem fetch_keepsOut_iff (env : Env) (maxHops : Nat) (maxSize : Option Nat) (url : String) :
    (∀ k target, Guards env k target ↔ Listed env k target) ∧
      (KeepsOut env maxHops (safeFetchAsync env maxHops maxSize url) ↔
        ∀ call ∈ (safeFetchAsync env maxHops maxSize url).calls, Listed env call.1 call.2) := by
  refine ⟨guards_iff env, ?_⟩
  obtain ⟨hlen, hval⟩ := fetchHops_spec env maxSize (maxHops + 1) 0 url
  constructor
  · rintro ⟨-, -, -, hguards⟩ call hcall
    exact (guards_iff env _ _).1 (hguards call hcall)
  · intro hlisted
    refine ⟨hlen, hval, fun c hc => ?_, fun call hcall => (guards_iff env _ _).2 (hlisted call hcall)⟩
    obtain ⟨target, ips, hmem, hips, hin⟩ := hval c hc
    exact ((guards_iff env _ _).2 (hlisted _ hmem)).1 ips hips c.2 hin

def zeroEnv : Env where
  delegates := true
  urlparse := fun url =>
    if url = "http://a.example/" then some { scheme := "http", hostname := some "a.example", portValid := true } else none
  ipAddress := fun text => if text = "0.0.0.0" then some (.v4 0) else none
  getaddrinfo := fun _ hostname => if hostname = "a.example" then some ["0.0.0.0"] else none
  server := fun _ _ => .response none

/-- The fetch connects to 0.0.0.0. -/
theorem zero_address_reached :
    (safeFetchAsync zeroEnv 5 none "http://a.example/").connections = [(0, .v4 0)] ∧ Internal (.v4 0) ∧
      ¬ KeepsOut zeroEnv 5 (safeFetchAsync zeroEnv 5 none "http://a.example/") := by
  have hconnects : (safeFetchAsync zeroEnv 5 none "http://a.example/").connections = [(0, .v4 0)] := by
    decide +kernel
  have hinternal : Internal (.v4 0) := .inl rfl
  refine ⟨hconnects, hinternal, fun h => ?_⟩
  exact h.2.2.1 (0, .v4 0) (by rw [hconnects]; exact List.mem_singleton.2 rfl) hinternal

end FusionMlx.UrlSafety

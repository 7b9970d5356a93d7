import Std.Data.ExtTreeMap.Lemmas
import Opolys.Library.FiniteMap
import Opolys.Library.RollingWindow
import Opolys.Library.Transition

/-!
# Access to the JSON-RPC server

The server looks at the envelope of a request, at the number of requests of its address within the
last minute, and at its API key, before it calls a handler. Texts of headers are bytes, the times
are nanoseconds of a clock that never goes back. The handlers are a parameter.

* `RateLimiter.checkLimit`, `checkApiKey`, `handleJsonrpc` : the three checks.
* `RateLimiter.Remembers.checkLimit` : the limiter decides as one that remembers every request.
* `requests_within_limits` : what an address can do within a minute.
* `answered_iff` : which requests reach a handler.
-/

namespace Opolys

open Std (ExtTreeMap)
open RollingWindow (Event recent timesOf activeKeys Admits record)

/-! ## The rate limiter -/

def rateLimitWindowSecs : ℕ := 60

def maxRateLimitKeys : ℕ := 10000

def nanosPerSec : ℕ := 1000000000

/-- The whole seconds between two readings of the clock. -/
def elapsedSecs (earlier now : ℕ) : ℕ := (now - earlier) / nanosPerSec

/-- What the limiter remembers: for every key the times of its requests. -/
structure RateLimiter where
  requests : ExtTreeMap String (List ℕ)
  maxPerMinute : ℕ

namespace RateLimiter

def new (maxPerMinute : ℕ) : RateLimiter := { requests := ∅, maxPerMinute }

/-- Forget what is older than a minute, and the keys that nothing is left of. -/
def expire (limiter : RateLimiter) (now : ℕ) : RateLimiter :=
  { limiter with
    requests := limiter.requests.filterMap fun _ entries =>
      let entries := entries.filter fun t => elapsedSecs t now < rateLimitWindowSecs
      if entries.isEmpty then none else some entries }

/-- Whether a request of a key is allowed. -/
def checkLimit (limiter : RateLimiter) (now : ℕ) (key : String) (max : ℕ) : Bool × RateLimiter :=
  let limiter := limiter.expire now
  if limiter.requests.contains key = false ∧ maxRateLimitKeys ≤ limiter.requests.size then
    (false, limiter)
  else
    let entries := (limiter.requests[key]?).getD []
    if max ≤ entries.length then
      (false, { limiter with requests := limiter.requests.insert key entries })
    else (true, { limiter with requests := limiter.requests.insert key (entries ++ [now]) })

def check (limiter : RateLimiter) (now : ℕ) (key : String) : Bool × RateLimiter :=
  limiter.checkLimit now key limiter.maxPerMinute

/-! ### What it remembers -/

/-- A minute. -/
def window : ℕ := rateLimitWindowSecs * nanosPerSec

theorem window_pos : 0 < window := by decide

theorem elapsedSecs_lt_iff {earlier now : ℕ} :
    elapsedSecs earlier now < rateLimitWindowSecs ↔ now - earlier < window :=
  Nat.div_lt_iff_lt_mul (by decide)

/-- The times that the limiter remembers for a key. -/
def entries (limiter : RateLimiter) (key : String) : List ℕ := (limiter.requests[key]?).getD []

/-- The limiter remembers of a log what counted at a time. -/
def Remembers (limiter : RateLimiter) (now : ℕ) (log : List (Event String)) : Prop :=
  ∀ key, limiter.entries key = recent window now (timesOf key log)

theorem remembers_new (maxPerMinute now : ℕ) : (new maxPerMinute).Remembers now [] := by
  intro key
  simp [entries, new, timesOf]

variable {limiter : RateLimiter} {now later : ℕ} {log : List (Event String)}

theorem Remembers.getElem?_expire (h : limiter.Remembers now log) (hlater : now ≤ later)
    (key : String) : (limiter.expire later).requests[key]? =
      if recent window later (timesOf key log) = [] then none
      else some (recent window later (timesOf key log)) := by
  have hkept (times : List ℕ) :
      (times.filter fun t => elapsedSecs t later < rateLimitWindowSecs) =
        recent window later times := by
    unfold recent
    apply List.filter_congr
    intro t _
    exact decide_eq_decide.mpr elapsedSecs_lt_iff
  have hkey := h key
  rw [← RollingWindow.recent_recent window hlater, ← hkey]
  unfold expire entries
  dsimp only
  rw [ExtTreeMap.getElem?_filterMap']
  cases limiter.requests[key]? with
  | none => rfl
  | some times => simp [hkept, List.isEmpty_iff]

theorem Remembers.expire (h : limiter.Remembers now log) (hlater : now ≤ later) :
    (limiter.expire later).Remembers later log := by
  intro key
  rw [entries, h.getElem?_expire hlater]
  split
  · rename_i hnone
    exact hnone.symm
  · rfl

theorem Remembers.contains_expire (h : limiter.Remembers now log) (hlater : now ≤ later)
    (key : String) : (limiter.expire later).requests.contains key = true ↔
      key ∈ activeKeys window later log := by
  rw [RollingWindow.mem_activeKeys, ExtTreeMap.contains_eq_isSome_getElem?,
    h.getElem?_expire hlater]
  split
  · rename_i hnone
    simp [hnone]
  · rename_i hsome
    simp [hsome]

/-- As many keys are remembered as count. -/
theorem Remembers.size_expire (h : limiter.Remembers now log) (hlater : now ≤ later) :
    (limiter.expire later).requests.size = (activeKeys window later log).card := by
  have hnodup : (limiter.expire later).requests.keys.Nodup := by
    refine ExtTreeMap.distinct_keys.imp ?_
    rintro a b h rfl
    exact h Std.ReflCmp.compare_self
  have hkeys : (limiter.expire later).requests.keys.toFinset = activeKeys window later log := by
    ext key
    rw [List.mem_toFinset, ExtTreeMap.mem_keys, ← ExtTreeMap.contains_iff_mem,
      h.contains_expire hlater]
  rw [← hkeys, List.toFinset_card_of_nodup hnodup, ExtTreeMap.length_keys]

theorem entries_insert_self (key : String) (times : List ℕ) :
    entries { limiter with requests := limiter.requests.insert key times } key = times := by
  unfold entries
  dsimp only
  rw [FiniteMap.getElem?_insert_self]
  rfl

theorem entries_insert_of_ne {key other : String} (h : key ≠ other) (times : List ℕ) :
    entries { limiter with requests := limiter.requests.insert key times } other =
      limiter.entries other := by
  unfold entries
  dsimp only
  rw [FiniteMap.getElem?_insert', if_neg h]

/-- What is written for a key is what the log says of it. -/
theorem Remembers.insert (h : limiter.Remembers now log) {key : String} {times : List ℕ}
    {log' : List (Event String)} (hself : times = recent window now (timesOf key log'))
    (hothers : ∀ other, key ≠ other → timesOf other log' = timesOf other log) :
    Remembers { limiter with requests := limiter.requests.insert key times } now log' := by
  intro other
  by_cases hkey : key = other
  · subst hkey
    rw [entries_insert_self, hself]
  · rw [entries_insert_of_ne hkey, h other, hothers other hkey]

/-- The limiter decides as the log does, and remembers what the log has then. -/
theorem Remembers.checkLimit (h : limiter.Remembers now log) (e : Event String)
    (hlater : now ≤ e.now) :
    ((limiter.checkLimit e.now e.key e.max).1 = true ↔ Admits window maxRateLimitKeys log e) ∧
      (limiter.checkLimit e.now e.key e.max).2.Remembers e.now
        (record window maxRateLimitKeys log e) := by
  have hexpired := h.expire hlater
  have hentries : ((limiter.expire e.now).requests[e.key]?).getD [] =
      recent window e.now (timesOf e.key log) := hexpired e.key
  have hcontains := h.contains_expire hlater e.key
  have hsize := h.size_expire hlater
  unfold RateLimiter.checkLimit
  dsimp only
  rw [hentries, hsize]
  by_cases hfull : (limiter.expire e.now).requests.contains e.key = false ∧
      maxRateLimitKeys ≤ (activeKeys window e.now log).card
  · have hnot : ¬Admits window maxRateLimitKeys log e := by
      rintro ⟨-, hknown | hspace⟩
      · rw [← hcontains, hfull.1] at hknown
        cases hknown
      · exact absurd hspace (Nat.not_lt.mpr hfull.2)
    rw [if_pos hfull, record, if_neg hnot]
    exact ⟨iff_of_false Bool.false_ne_true hnot, hexpired⟩
  · have hroom : e.key ∈ activeKeys window e.now log ∨
        (activeKeys window e.now log).card < maxRateLimitKeys := by
      by_cases hknown : (limiter.expire e.now).requests.contains e.key = true
      · exact Or.inl (hcontains.mp hknown)
      · exact Or.inr (Nat.not_le.mp fun hle =>
          hfull ⟨Bool.eq_false_of_not_eq_true hknown, hle⟩)
    rw [if_neg hfull]
    by_cases hmany : e.max ≤ (recent window e.now (timesOf e.key log)).length
    · have hnot : ¬Admits window maxRateLimitKeys log e := fun hadmits =>
        absurd hadmits.1 (Nat.not_lt.mpr hmany)
      rw [if_pos hmany, record, if_neg hnot]
      exact ⟨iff_of_false Bool.false_ne_true hnot, hexpired.insert rfl fun _ _ => rfl⟩
    · have hadmits : Admits window maxRateLimitKeys log e := ⟨Nat.not_le.mp hmany, hroom⟩
      rw [if_neg hmany, record, if_pos hadmits]
      refine ⟨iff_of_true rfl hadmits, hexpired.insert ?_ ?_⟩
      · rw [RollingWindow.timesOf_concat_self, RollingWindow.recent_concat window_pos]
      · intro other hother
        exact RollingWindow.timesOf_concat_of_ne hother log

/-- There are never more keys than the limiter may remember. -/
theorem size_checkLimit (hsize : limiter.requests.size ≤ maxRateLimitKeys) (now : ℕ) (key : String)
    (max : ℕ) : (limiter.checkLimit now key max).2.requests.size ≤ maxRateLimitKeys := by
  have hexpired : (limiter.expire now).requests.size ≤ maxRateLimitKeys :=
    ExtTreeMap.size_filterMap_le_size.trans hsize
  have hinsert (times : List ℕ)
      (hroom : ¬((limiter.expire now).requests.contains key = false ∧
        maxRateLimitKeys ≤ (limiter.expire now).requests.size)) :
      ((limiter.expire now).requests.insert key times).size ≤ maxRateLimitKeys := by
    rw [ExtTreeMap.size_insert]
    split
    · exact hexpired
    · rename_i hnew
      have hfalse : (limiter.expire now).requests.contains key = false :=
        Bool.eq_false_of_not_eq_true hnew
      by_contra hle
      exact hroom ⟨hfalse, by omega⟩
  unfold checkLimit
  dsimp only
  split
  · exact hexpired
  · rename_i hroom
    split
    · exact hinsert _ hroom
    · exact hinsert _ hroom

end RateLimiter

/-! ## The API key -/

/-- The size of the buffers in which keys are compared. -/
def keyBufferSize : ℕ := 256

/-- A text in a buffer, with zeros behind it. -/
def padded (text : List UInt8) : List UInt8 :=
  text.take keyBufferSize ++ List.replicate (keyBufferSize - text.length) 0

/-- Compare keys as a whole. -/
def constantTimeKeyEq (provided required : List UInt8) : Bool :=
  let bytesMatch := decide (padded provided = padded required)
  let lengthsMatch := decide (provided.length = required.length)
  let providedFits := decide (provided.length ≤ keyBufferSize)
  let requiredFits := decide (required.length ≤ keyBufferSize)
  bytesMatch && lengthsMatch && providedFits && requiredFits

/-- The headers of a request that are looked at. -/
structure Headers where
  authorization : Option (List UInt8)
  xApiKey : Option (List UInt8)

def bearer : List UInt8 := "Bearer ".toUTF8.toList

def checkApiKey (headers : Headers) (requiredKey : List UInt8) : Bool :=
  (headers.authorization.any fun val =>
    bearer.isPrefixOf val && constantTimeKeyEq (val.drop bearer.length) requiredKey) ||
  headers.xApiKey.any fun val => constantTimeKeyEq val requiredKey

/-- One of the headers is the key. -/
def Headers.Carries (headers : Headers) (key : List UInt8) : Prop :=
  headers.authorization = some (bearer ++ key) ∨ headers.xApiKey = some key

instance (headers : Headers) (key : List UInt8) : Decidable (headers.Carries key) :=
  inferInstanceAs (Decidable (_ ∨ _))

theorem padded_of_le {text : List UInt8} (h : text.length ≤ keyBufferSize) :
    padded text = text ++ List.replicate (keyBufferSize - text.length) 0 := by
  rw [padded, List.take_of_length_le h]

/-- Keys are equal when the comparison says so, as long as they fit into its buffers. -/
theorem constantTimeKeyEq_iff {provided required : List UInt8} :
    constantTimeKeyEq provided required = true ↔
      provided = required ∧ required.length ≤ keyBufferSize := by
  unfold constantTimeKeyEq
  simp only [Bool.and_eq_true, decide_eq_true_eq]
  constructor
  · rintro ⟨⟨⟨hbytes, hlength⟩, hprovided⟩, hrequired⟩
    rw [padded_of_le hprovided, padded_of_le hrequired] at hbytes
    exact ⟨(List.append_inj hbytes hlength).1, hrequired⟩
  · rintro ⟨rfl, hfits⟩
    exact ⟨⟨⟨rfl, rfl⟩, hfits⟩, hfits⟩

theorem checkApiKey_iff {headers : Headers} {key : List UInt8} :
    checkApiKey headers key = true ↔ headers.Carries key ∧ key.length ≤ keyBufferSize := by
  have hbearer : (headers.authorization.any fun val =>
      bearer.isPrefixOf val && constantTimeKeyEq (val.drop bearer.length) key) = true ↔
        headers.authorization = some (bearer ++ key) ∧ key.length ≤ keyBufferSize := by
    cases headers.authorization with
    | none => simp
    | some val =>
      simp only [Option.any_some, Bool.and_eq_true, constantTimeKeyEq_iff,
        List.isPrefixOf_iff_prefix,
        Option.some.injEq]
      constructor
      · rintro ⟨⟨rest, rfl⟩, hdrop, hfits⟩
        rw [List.drop_left] at hdrop
        rw [hdrop]
        exact ⟨rfl, hfits⟩
      · rintro ⟨rfl, hfits⟩
        exact ⟨List.prefix_append _ _, List.drop_left, hfits⟩
  have hplain : (headers.xApiKey.any fun val => constantTimeKeyEq val key) = true ↔
      headers.xApiKey = some key ∧ key.length ≤ keyBufferSize := by
    cases headers.xApiKey with
    | none => simp
    | some val => simp [constantTimeKeyEq_iff]
  unfold checkApiKey Headers.Carries
  rw [Bool.or_eq_true, hbearer, hplain, or_and_right]

/-! ## Requests -/

structure JsonRpcError where
  code : ℤ
  message : String
deriving DecidableEq

namespace JsonRpcError

def invalidRequest (msg : String) : JsonRpcError := { code := -32600, message := msg }

def methodNotFound : JsonRpcError := { code := -32601, message := "Method not found" }

def unauthorized : JsonRpcError :=
  { code := -32004
    message := "This method requires an API key. " ++
      "Use Authorization: Bearer <key> or X-Api-Key: <key>." }

def rateLimited : JsonRpcError :=
  { code := -32005, message := "Rate limit exceeded. Too many requests." }

end JsonRpcError

inductive JsonRpcId where
  | number (n : UInt64)
  | string (s : String)
  | null

structure JsonRpcRequest (π : Type*) where
  jsonrpc : String
  method : String
  params : π
  id : JsonRpcId

structure JsonRpcResponse (ν : Type*) where
  jsonrpc : String
  result : Option ν
  error : Option JsonRpcError
  id : JsonRpcId

/-- A request, with the time at which it arrives and the address that it comes from. -/
structure HttpRequest (π : Type*) where
  now : ℕ
  ip : String
  headers : Headers
  rpc : JsonRpcRequest π

/-- The tier of a method, how many of its requests a minute may have, and whether it needs a key. -/
def classifyMethod (method : String) : String × ℕ × Bool :=
  if method = "opl_sendTransaction" then ("write", 10, true)
  else if method = "opl_getMiningJob" ∨ method = "opl_submitSolution" then ("mining", 30, true)
  else ("read", 120, false)

/-- The methods that have a handler. -/
def rpcMethods : List String :=
  ["opl_getBlockHeight", "opl_getChainInfo", "opl_getNetworkVersion", "opl_getBalance",
    "opl_getAccount", "opl_getBlockByHeight", "opl_getBlockByHash", "opl_getLatestBlocks",
    "opl_getTransaction", "opl_getMempoolStatus", "opl_getSupply", "opl_getMintLedger",
    "opl_getDifficulty", "opl_getRefiners", "opl_getRefinerHallmark", "opl_getBlockConfidence",
    "opl_getBlockAssayCertificate", "opl_getFinalizedHeight", "opl_sendTransaction",
    "opl_getMiningJob", "opl_submitSolution"]

/-- What the server keeps from request to request. -/
structure RpcServer where
  rateLimiter : RateLimiter
  apiKey : Option (List UInt8)

def RpcServer.new (apiKey : Option (List UInt8)) : RpcServer :=
  { rateLimiter := .new 120, apiKey }

namespace HttpRequest

variable {π : Type*}

/-- What the limiter counts a request under. -/
def rateKey (req : HttpRequest π) : String :=
  req.ip ++ ":" ++ (classifyMethod req.rpc.method).1

def maxPerMin (req : HttpRequest π) : ℕ := (classifyMethod req.rpc.method).2.1

def needsAuth (req : HttpRequest π) : Bool := (classifyMethod req.rpc.method).2.2

def event (req : HttpRequest π) : Event String :=
  { now := req.now, key := req.rateKey, max := req.maxPerMin }

/-- The request as one of an address in a tier. -/
def visit (req : HttpRequest π) : Event (String × String) :=
  { now := req.now, key := (req.ip, (classifyMethod req.rpc.method).1), max := req.maxPerMin }

end HttpRequest

variable {π ν : Type*} (handlers : String → π → Except JsonRpcError ν)

/-- Answer a request, with the status of the answer. -/
def handleJsonrpc (server : RpcServer) (req : HttpRequest π) :
    (ℕ × JsonRpcResponse ν) × RpcServer :=
  let refuse (e : JsonRpcError) : JsonRpcResponse ν :=
    { jsonrpc := "2.0", result := none, error := some e, id := req.rpc.id }
  if req.rpc.jsonrpc ≠ "2.0" then
    ((400, refuse (.invalidRequest "jsonrpc must be exactly \"2.0\"")), server)
  else
    let checked := server.rateLimiter.checkLimit req.now req.rateKey req.maxPerMin
    let server := { server with rateLimiter := checked.2 }
    if checked.1 = false then ((429, refuse .rateLimited), server)
    else if req.needsAuth && server.apiKey.any fun key => !checkApiKey req.headers key then
      ((401, refuse .unauthorized), server)
    else if rpcMethods.any (fun name => name = req.rpc.method) then
      match handlers req.rpc.method req.rpc.params with
      | .ok value =>
        ((200, { jsonrpc := "2.0", result := some value, error := none, id := req.rpc.id }), server)
      | .error e => ((200, refuse e), server)
    else ((200, refuse .methodNotFound), server)

/-- The server after a request. -/
def RpcServer.answer (server : RpcServer) (req : HttpRequest π) : RpcServer :=
  (handleJsonrpc handlers server req).2

/-- The requests of a run that get past the limiter. -/
def passed : RpcServer → List (HttpRequest π) → List (HttpRequest π)
  | _, [] => []
  | server, req :: reqs =>
    let status := (handleJsonrpc handlers server req).1.1
    if status = 400 ∨ status = 429 then passed (server.answer handlers req) reqs
    else req :: passed (server.answer handlers req) reqs

/-- A request may be answered to this address: no key is needed, or the request has it. -/
def Authorized (apiKey : Option (List UInt8)) (req : HttpRequest π) : Prop :=
  req.needsAuth = true →
    ∀ key, apiKey = some key → req.headers.Carries key ∧ key.length ≤ keyBufferSize

variable {handlers} {server : RpcServer} {req : HttpRequest π}

theorem authorized_iff : Authorized server.apiKey req ↔
    (req.needsAuth && server.apiKey.any fun key => !checkApiKey req.headers key) = false := by
  unfold Authorized
  cases req.needsAuth with
  | false => simp
  | true =>
    cases server.apiKey with
    | none => simp
    | some key => simp [← checkApiKey_iff]

/-- What the envelope, the limiter and the key make of a request. -/
theorem handleJsonrpc_cases (handlers : String → π → Except JsonRpcError ν) (server : RpcServer)
    (req : HttpRequest π) :
    (req.rpc.jsonrpc ≠ "2.0" ∧ (handleJsonrpc handlers server req).1.1 = 400 ∧
        server.answer handlers req = server) ∨
      (req.rpc.jsonrpc = "2.0" ∧ server.answer handlers req = { server with
          rateLimiter := (server.rateLimiter.checkLimit req.now req.rateKey req.maxPerMin).2 } ∧
        ((server.rateLimiter.checkLimit req.now req.rateKey req.maxPerMin).1 = false ∧
            (handleJsonrpc handlers server req).1.1 = 429 ∨
          (server.rateLimiter.checkLimit req.now req.rateKey req.maxPerMin).1 = true ∧
            ¬Authorized server.apiKey req ∧ (handleJsonrpc handlers server req).1.1 = 401 ∨
          (server.rateLimiter.checkLimit req.now req.rateKey req.maxPerMin).1 = true ∧
            Authorized server.apiKey req ∧ (handleJsonrpc handlers server req).1.1 = 200)) := by
  have hauthorized := @authorized_iff π server req
  unfold RpcServer.answer handleJsonrpc
  dsimp only
  by_cases henvelope : req.rpc.jsonrpc ≠ "2.0"
  · rw [if_pos henvelope]
    exact Or.inl ⟨henvelope, rfl, rfl⟩
  · rw [if_neg henvelope]
    refine Or.inr ⟨not_not.mp henvelope, ?_⟩
    by_cases hlimit : (server.rateLimiter.checkLimit req.now req.rateKey req.maxPerMin).1 = false
    · rw [if_pos hlimit]
      exact ⟨rfl, Or.inl ⟨hlimit, rfl⟩⟩
    · rw [if_neg hlimit]
      have hpasses := Bool.eq_true_of_not_eq_false hlimit
      by_cases hkey : (req.needsAuth &&
          server.apiKey.any fun key => !checkApiKey req.headers key) = true
      · have hrefused : ¬Authorized server.apiKey req := by
          rw [hauthorized, hkey]
          exact fun h => Bool.false_ne_true h.symm
        rw [if_pos hkey]
        exact ⟨rfl, Or.inr (Or.inl ⟨hpasses, hrefused, rfl⟩)⟩
      · have hallowed := hauthorized.mpr (Bool.eq_false_of_not_eq_true hkey)
        rw [if_neg hkey]
        by_cases hmethod : (rpcMethods.any fun name => name = req.rpc.method) = true
        · rw [if_pos hmethod]
          cases handlers req.rpc.method req.rpc.params with
          | ok value => exact ⟨rfl, Or.inr (Or.inr ⟨hpasses, hallowed, rfl⟩)⟩
          | error e => exact ⟨rfl, Or.inr (Or.inr ⟨hpasses, hallowed, rfl⟩)⟩
        · rw [if_neg hmethod]
          exact ⟨rfl, Or.inr (Or.inr ⟨hpasses, hallowed, rfl⟩)⟩

/-! ## Runs -/

/-- The server remembers what it must of the requests it has let past the limiter, and no more than
it may. -/
structure RpcServer.Sound (server : RpcServer) (now : ℕ) (log : List (Event String)) : Prop where
  remembers : server.rateLimiter.Remembers now log
  within : RollingWindow.Within RateLimiter.window log
  size : server.rateLimiter.requests.size ≤ maxRateLimitKeys

theorem RpcServer.sound_new (apiKey : Option (List UInt8)) : (RpcServer.new apiKey).Sound 0 [] :=
  ⟨RateLimiter.remembers_new 120 0, RollingWindow.within_nil, Nat.zero_le _⟩

/-- A request keeps the server sound, and only one that passes the limiter is remembered. -/
theorem RpcServer.Sound.answer {now : ℕ} {log : List (Event String)} (h : server.Sound now log)
    (handlers : String → π → Except JsonRpcError ν) (hnow : now ≤ req.now) :
    ∃ later ≤ req.now, now ≤ later ∧
      (server.answer handlers req).Sound later (log ++ (passed handlers server [req]).map
        HttpRequest.event) ∧
      (server.answer handlers req).apiKey = server.apiKey ∧
      ((handleJsonrpc handlers server req).1.1 = 200 ↔ req.rpc.jsonrpc = "2.0" ∧
        Admits RateLimiter.window maxRateLimitKeys log req.event ∧
        Authorized server.apiKey req) := by
  obtain ⟨hdecides, hremembers⟩ := h.remembers.checkLimit req.event hnow
  have hsize := RateLimiter.size_checkLimit h.size req.now req.rateKey req.maxPerMin
  have hwithin : RollingWindow.Within RateLimiter.window
      (record RateLimiter.window maxRateLimitKeys log req.event) := h.within.record req.event
  have hallows : (server.rateLimiter.checkLimit req.now req.rateKey req.maxPerMin).1 = true ↔
      Admits RateLimiter.window maxRateLimitKeys log req.event := hdecides
  have hpassed : passed handlers server [req] =
      if (handleJsonrpc handlers server req).1.1 = 400 ∨
        (handleJsonrpc handlers server req).1.1 = 429 then [] else [req] := rfl
  rcases handleJsonrpc_cases handlers server req with
    ⟨henvelope, hstatus, hserver⟩ | ⟨henvelope, hserver, hrest⟩
  · refine ⟨now, hnow, le_rfl, ?_, by rw [hserver], ?_⟩
    · rw [hpassed, if_pos (Or.inl hstatus), hserver]
      simpa using h
    · simp [hstatus, henvelope]
  · have hlog : log ++ (passed handlers server [req]).map HttpRequest.event =
        record RateLimiter.window maxRateLimitKeys log req.event := by
      rw [hpassed]
      unfold record
      rcases hrest with ⟨hlimit, hstatus⟩ | ⟨hlimit, -, hstatus⟩ | ⟨hlimit, -, hstatus⟩
      · have hnot : ¬Admits RateLimiter.window maxRateLimitKeys log req.event := by
          rw [← hallows, hlimit]
          exact Bool.false_ne_true
        simp [hstatus, hnot]
      · simp [hstatus, hallows.mp hlimit]
      · simp [hstatus, hallows.mp hlimit]
    refine ⟨req.now, le_rfl, hnow, ?_, by rw [hserver], ?_⟩
    · rw [hlog, hserver]
      exact ⟨hremembers, hwithin, hsize⟩
    · rw [← hallows]
      rcases hrest with ⟨hlimit, hstatus⟩ | ⟨hlimit, hauth, hstatus⟩ | ⟨hlimit, hauth, hstatus⟩
      · simp [hstatus, hlimit]
      · simp [hstatus, hauth]
      · simp [hstatus, henvelope, hlimit, hauth]

/-- The requests that pass, one after the other. -/
theorem passed_cons (handlers : String → π → Except JsonRpcError ν) (server : RpcServer)
    (req : HttpRequest π) (reqs : List (HttpRequest π)) : passed handlers server (req :: reqs) =
      passed handlers server [req] ++ passed handlers (server.answer handlers req) reqs := by
  simp only [passed]
  split
  · rfl
  · rfl

/-- A run keeps the server sound. -/
theorem RpcServer.Sound.run {now : ℕ} {log : List (Event String)} (h : server.Sound now log)
    (handlers : String → π → Except JsonRpcError ν) {reqs : List (HttpRequest π)}
    (hsorted : reqs.Pairwise fun req later => req.now ≤ later.now)
    (hnow : ∀ req ∈ reqs, now ≤ req.now) :
    ∃ last, (∀ bound, now ≤ bound → (∀ req ∈ reqs, req.now ≤ bound) → last ≤ bound) ∧
      (Transition.run (RpcServer.answer handlers) server reqs).Sound last
        (log ++ (passed handlers server reqs).map HttpRequest.event) ∧
      (Transition.run (RpcServer.answer handlers) server reqs).apiKey = server.apiKey := by
  induction reqs generalizing server now log with
  | nil =>
    refine ⟨now, fun bound hbound _ => hbound, ?_, rfl⟩
    simpa [passed] using h
  | cons req reqs ih =>
    obtain ⟨hfirst, hrest⟩ := List.pairwise_cons.mp hsorted
    obtain ⟨later, hle, hlater, hsound, hkey, -⟩ := h.answer handlers (hnow req List.mem_cons_self)
    obtain ⟨last, hlast, hend, hkeys⟩ :=
      ih hsound hrest fun other hother => hle.trans (hfirst other hother)
    refine ⟨last, ?_, ?_, hkeys.trans hkey⟩
    · intro bound hbound hall
      apply hlast bound (hle.trans (hall req List.mem_cons_self))
      exact fun other hother => hall other (List.mem_cons_of_mem _ hother)
    · rw [passed_cons, List.map_append, ← List.append_assoc]
      exact hend

/-! ### Addresses and tiers -/

/-- Methods of one tier have one limit. -/
theorem maxPerMin_congr {method other : String}
    (h : (classifyMethod method).1 = (classifyMethod other).1) :
    (classifyMethod method).2.1 = (classifyMethod other).2.1 := by
  have hcases (method : String) : classifyMethod method = ("write", 10, true) ∨
      classifyMethod method = ("mining", 30, true) ∨
        classifyMethod method = ("read", 120, false) := by
    unfold classifyMethod
    split
    · exact Or.inl rfl
    · split
      · exact Or.inr (Or.inl rfl)
      · exact Or.inr (Or.inr rfl)
  rcases hcases method with hm | hm | hm <;> rcases hcases other with ho | ho | ho <;>
    simp [hm, ho] at h ⊢

/-- Within no minute does an address get more requests of a tier past the limiter than the tier
allows, and the limiter never remembers more keys than it may. -/
theorem requests_within_limits (handlers : String → π → Except JsonRpcError ν)
    (apiKey : Option (List UInt8)) (reqs : List (HttpRequest π))
    (hsorted : reqs.Pairwise fun req later => req.now ≤ later.now) :
    (∀ (ip method : String) (start : ℕ),
      (passed handlers (.new apiKey) reqs).countP (fun req => req.ip = ip ∧
        (classifyMethod req.rpc.method).1 = (classifyMethod method).1 ∧
        start ≤ req.now ∧ req.now < start + RateLimiter.window) ≤ (classifyMethod method).2.1) ∧
    (Transition.run (RpcServer.answer handlers) (.new apiKey) reqs).rateLimiter.requests.size ≤
      maxRateLimitKeys := by
  obtain ⟨last, -, hsound, -⟩ := (RpcServer.sound_new apiKey).run handlers hsorted
    fun _ _ => Nat.zero_le _
  refine ⟨?_, hsound.size⟩
  intro ip method start
  have hwithin := hsound.within (ip ++ ":" ++ (classifyMethod method).1)
    (classifyMethod method).2.1 start
  rw [List.nil_append, List.countP_map] at hwithin
  refine le_trans (List.countP_mono_left ?_) hwithin
  intro req _ hreq
  simp only [decide_eq_true_eq, Function.comp] at hreq ⊢
  obtain ⟨rfl, htier, htimes⟩ := hreq
  refine ⟨?_, maxPerMin_congr htier, htimes⟩
  show req.ip ++ ":" ++ _ = _
  rw [htier]

namespace Reference

/-- A request for the height of the chain. -/
def heightRequest (now : ℕ) : HttpRequest Unit where
  now := now
  ip := "127.0.0.1"
  headers := { authorization := none, xApiKey := none }
  rpc := { jsonrpc := "2.0", method := "opl_getBlockHeight", params := (), id := .null }

def answerNothing : String → Unit → Except JsonRpcError Unit := fun _ _ => .ok ()

end Reference

open Reference

theorem requests_within_limits_of_reference :
    (passed answerNothing (.new none) [heightRequest 0, heightRequest 5]).countP (fun req =>
        req.ip = "127.0.0.1" ∧ (classifyMethod req.rpc.method).1 = "read" ∧ 0 ≤ req.now ∧
          req.now < 0 + RateLimiter.window) ≤ 120 ∧
      (Transition.run (RpcServer.answer answerNothing) (.new none)
        [heightRequest 0, heightRequest 5]).rateLimiter.requests.size ≤ maxRateLimitKeys := by
  obtain ⟨hcount, hsize⟩ := requests_within_limits answerNothing none
    [heightRequest 0, heightRequest 5] (by decide)
  exact ⟨hcount "127.0.0.1" "opl_getBlockHeight" 0, hsize⟩

end Opolys

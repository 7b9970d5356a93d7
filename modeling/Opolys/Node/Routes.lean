import Opolys.Consensus.Limits
import Opolys.Execution.Verified
import Opolys.Node.Readmission

/-!
# The route a transaction takes

A transaction reaches the mempool by gossip or through the server. The handler of gossip scores
it with its fee, the server with its fee for every million bytes, and the pool orders and evicts
by the scores of both.

* `routeBlind_iff` : when the order of the pool does not depend on the routes.
-/

namespace Opolys

open Codec (Borsh)
open Effect
open Mempool

variable {P : Primitives}

/-! ## Scores -/

/-- How a transaction has come to the node. -/
inductive Route where
  | gossip
  | rpc
deriving DecidableEq

/-- The score a transaction gets on its route. -/
def Route.priority (tx : Transaction) : Route → UInt64
  | .gossip => tx.fee
  | .rpc => rpcPriority tx.fee (Borsh.encode tx).length

/-- A transaction that is short enough for both handlers, with what the pool is told of it. -/
structure Arrival where
  order : IterOrder
  tx : Transaction
  submittedAt : UInt64
  accountNonce : UInt64
  suggestedFee : FlakeAmount
  size_le : (Borsh.encode tx).length ≤ txMaxSizeBytes

/-- The operation on the pool that an arrival leads to. -/
def Arrival.operation (arrival : Arrival) (route : Route) : Operation :=
  .addTransaction arrival.order arrival.tx (route.priority arrival.tx) arrival.submittedAt
    arrival.accountNonce arrival.suggestedFee mainnetChainId

/-- The pool after an arrival on a route. -/
def offer (P : Primitives) (pool : Mempool) (arrival : Arrival × Route) : Mempool :=
  perform P pool (arrival.1.operation arrival.2)

/-- What an arrival must pass, on either route. -/
def Arrival.Gates (P : Primitives) (pool : Mempool) (arrival : Arrival) : Prop :=
  Mempool.Gates P arrival.order arrival.tx arrival.accountNonce arrival.suggestedFee
    mainnetChainId pool

/-! ## Handlers -/

theorem leaves_addTransaction (order : IterOrder) (tx : Transaction)
    (priorityScore submittedAt accountNonce suggestedFee expectedChainId : UInt64)
    (pool : Mempool) :
    leaves (addTransaction P order tx priorityScore submittedAt accountNonce suggestedFee
        expectedChainId) pool =
      perform P pool (.addTransaction order tx priorityScore submittedAt accountNonce suggestedFee
        expectedChainId) := by
  unfold leaves perform
  dsimp only
  cases addTransaction P order tx priorityScore submittedAt accountNonce suggestedFee
    expectedChainId pool <;> rfl

theorem gossipedSubmission_eq_some {loop : EventLoop} {env : EventEnv} {data : Payload Transaction}
    {source : PeerId} {s : Submission} (h : gossipedSubmission P loop env data source = some s) :
    s.priorityScore = Route.gossip.priority s.tx ∧ (Borsh.encode s.tx).length ≤ txMaxSizeBytes := by
  unfold gossipedSubmission at h
  dsimp only at h
  cases data with
  | malformed length => cases h
  | encoded tx =>
    dsimp only at h
    split at h
    · rename_i hpasses
      cases h
      exact ⟨rfl, Nat.le_of_not_lt hpasses.2.2.1⟩
    · cases h

theorem sentSubmission_eq_some {env : RpcEnv} {data : Payload Transaction} {s : Submission}
    (h : sentSubmission P env data = some s) :
    s.priorityScore = Route.rpc.priority s.tx ∧ (Borsh.encode s.tx).length ≤ txMaxSizeBytes := by
  unfold sentSubmission at h
  split at h
  · cases h
  · rename_i tx txSize hdecode
    cases h
    unfold decodeVerifiedRpcTransaction at hdecode
    rw [check_bind_eq_ok] at hdecode
    obtain ⟨hlength, hdecode⟩ := hdecode
    cases data with
    | malformed length => cases hdecode
    | encoded tx' =>
      dsimp only at hdecode
      split at hdecode
      · cases hdecode
      · cases hdecode
        exact ⟨rfl, hlength⟩

/-- Whatever a handler hands to the pool is an arrival on the route of the handler. -/
theorem serve_offer {loop : EventLoop} {traffic : Traffic} {s : Submission}
    (h : submission P loop traffic = some s) :
    ∃ (arrival : Arrival) (route : Route), arrival.tx = s.tx ∧
      arrival.submittedAt = s.submittedAt ∧
      (serve P loop traffic).node.mempool = offer P loop.node.mempool (arrival, route) := by
  rcases serve_cases (P := P) loop traffic with ⟨hnone, -⟩ | ⟨s', hs', hserve⟩
  · rw [hnone] at h
    cases h
  · rw [hs'] at h
    cases h
    have hroute : ∃ route : Route, s.priorityScore = route.priority s.tx ∧
        (Borsh.encode s.tx).length ≤ txMaxSizeBytes := by
      cases traffic with
      | block call => cases hs'
      | gossip env data source => exact ⟨.gossip, gossipedSubmission_eq_some hs'⟩
      | rpc env data => exact ⟨.rpc, sentSubmission_eq_some hs'⟩
    obtain ⟨route, hpriority, hsize⟩ := hroute
    refine ⟨⟨s.order, s.tx, s.submittedAt, loop.node.accountNonce s.tx.sender,
      s.suggestedFee, hsize⟩, route, rfl, rfl, ?_⟩
    rw [hserve]
    unfold submit offer Arrival.operation
    rw [leaves_addTransaction, hpriority]

/-! ## Two runs -/

/-- The order in which the pool evicts. -/
def evictionOrder (pool : Mempool) (order : IterOrder) : List ObjectId :=
  ((pool.iter order).insertionSort fun a b => evictsBefore a b).map Prod.fst

/-- The routes of the arrivals make no difference: both handlers score an admitted transaction
alike, and the pool orders and evicts alike whichever routes the same arrivals take. -/
structure RouteBlind (P : Primitives) (start : Mempool) (arrivals : List Arrival) : Prop where
  score : ∀ routed : List (Arrival × Route), routed.map Prod.fst = arrivals →
    Transition.EveryStep (offer P) (fun pool routed => routed.1.Gates P pool →
      Route.gossip.priority routed.1.tx = Route.rpc.priority routed.1.tx) start routed
  ordered : ∀ routed routed' : List (Arrival × Route), routed.map Prod.fst = arrivals →
    routed'.map Prod.fst = arrivals → ∀ order,
      (Transition.run (offer P) start routed).getOrderedTransactions order =
        (Transition.run (offer P) start routed').getOrderedTransactions order
  evicted : ∀ routed routed' : List (Arrival × Route), routed.map Prod.fst = arrivals →
    routed'.map Prod.fst = arrivals → ∀ order,
      evictionOrder (Transition.run (offer P) start routed) order =
        evictionOrder (Transition.run (offer P) start routed') order

/-- Arrivals that all come by gossip. -/
def gossiped (arrivals : List Arrival) : List (Arrival × Route) :=
  arrivals.map fun arrival => (arrival, .gossip)

/-- A transaction that passes the gates offers the greatest fee there is. -/
def OffersMost (P : Primitives) (pool : Mempool) (routed : Arrival × Route) : Prop :=
  routed.1.Gates P pool → routed.1.tx.fee.toNat = 2 ^ 64 - 1

/-- In a million bytes there are ten transactions of the greatest size, so the two scores are the
same only where the greatest word is reached. -/
theorem priority_eq_iff {arrival : Arrival} {pool : Mempool} (h : arrival.Gates P pool) :
    Route.gossip.priority arrival.tx = Route.rpc.priority arrival.tx ↔
      arrival.tx.fee.toNat = 2 ^ 64 - 1 := by
  have hmin := UInt64.le_iff_toNat_le.mp h.minFee_le
  have hword := arrival.tx.fee.toNat_lt
  have hsize := arrival.size_le
  have hpos : 0 < (Borsh.encode arrival.tx).length := by
    rw [length_encode_transaction]
    omega
  have hmax : txMaxSizeBytes = 100000 := rfl
  have hword64 : UInt64.size = 2 ^ 64 := rfl
  rw [toNat_minFee] at hmin
  unfold Route.priority rpcPriority
  dsimp only
  generalize (Borsh.encode arrival.tx).length = size at hsize hpos ⊢
  rw [← UInt64.toNat_inj, MachineInt.toNat_ofNat_of_lt (by omega), Nat.max_eq_left hpos, hword64]
  have hten : 10 * arrival.tx.fee.toNat ≤ arrival.tx.fee.toNat * 1000000 / size := by
    rw [Nat.le_div_iff_mul_le hpos]
    calc 10 * arrival.tx.fee.toNat * size ≤ 10 * arrival.tx.fee.toNat * 100000 :=
          Nat.mul_le_mul_left _ (by omega)
      _ = arrival.tx.fee.toNat * 1000000 := by ring
  omega

/-- Where the scores are the same, or a gate is missed, so is the pool. -/
theorem offer_eq_of_offersMost {pool : Mempool} (hpool : pool.Consistent) {arrival : Arrival}
    {route : Route} (h : OffersMost P pool (arrival, .gossip)) :
    offer P pool (arrival, route) = offer P pool (arrival, .gossip) := by
  by_cases hgates : arrival.Gates P pool
  · have hscore := (priority_eq_iff hgates).mpr (h hgates)
    cases route with
    | gossip => rfl
    | rpc =>
      unfold offer Arrival.operation
      dsimp only
      rw [hscore]
  · have hsame (route : Route) : offer P pool (arrival, route) = pool := by
      have hends := addTransaction_ends P arrival.order arrival.tx (route.priority arrival.tx)
        arrival.submittedAt arrival.accountNonce arrival.suggestedFee mainnetChainId hpool
      unfold offer Arrival.operation perform
      dsimp only
      split <;> rename_i hrun
      · exact absurd (hends.ok hrun).2.1 hgates
      · exact (hends.error hrun).1.1
    rw [hsame, hsame]

/-- Where every admitted transaction offers the most, all routes lead to one pool. -/
theorem run_offer_eq {start : Mempool} (hstart : start.Consistent) {arrivals : List Arrival}
    (h : Transition.EveryStep (offer P) (OffersMost P) start (gossiped arrivals))
    {routed : List (Arrival × Route)} (hrouted : routed.map Prod.fst = arrivals) :
    Transition.run (offer P) start routed = Transition.run (offer P) start (gossiped arrivals) ∧
      Transition.EveryStep (offer P) (OffersMost P) start routed := by
  induction routed generalizing start arrivals with
  | nil =>
    subst hrouted
    exact ⟨rfl, trivial⟩
  | cons first routed ih =>
    subst hrouted
    obtain ⟨arrival, route⟩ := first
    have hsame : offer P start (arrival, route) = offer P start (arrival, .gossip) :=
      offer_eq_of_offersMost hstart h.1
    have hnext : (offer P start (arrival, .gossip)).Consistent := consistent_perform P hstart _
    obtain ⟨hrun, hevery⟩ := ih hnext h.2 rfl
    refine ⟨?_, h.1, ?_⟩
    · rw [Transition.run_cons, hsame, hrun]
      rfl
    · rw [hsame]
      exact hevery

/-- Whatever has happened to a pool before, the routes of the next arrivals make no difference if
and only if every transaction among them that passes the gates offers a fee of `2 ^ 64 - 1`. -/
theorem routeBlind_iff (P : Primitives) (operations : List Operation) (arrivals : List Arrival) :
    RouteBlind P (Transition.run (perform P) new operations) arrivals ↔
      Transition.EveryStep (offer P) (OffersMost P) (Transition.run (perform P) new operations)
        (gossiped arrivals) := by
  have hstart := consistent_run P operations
  generalize Transition.run (perform P) new operations = start at hstart ⊢
  have hgossiped : (gossiped arrivals).map Prod.fst = arrivals := by
    unfold gossiped
    rw [List.map_map]
    exact List.map_id arrivals
  constructor
  · intro h
    refine (h.score (gossiped arrivals) hgossiped).mono fun pool routed hscore hgates => ?_
    exact (priority_eq_iff hgates).mp (hscore hgates)
  · intro h
    have hrun {routed : List (Arrival × Route)} (hrouted : routed.map Prod.fst = arrivals) :=
      run_offer_eq hstart h hrouted
    refine ⟨fun routed hrouted => ?_, fun routed routed' hrouted hrouted' order => ?_,
      fun routed routed' hrouted hrouted' order => ?_⟩
    · refine (hrun hrouted).2.mono fun pool routed hmost hgates => ?_
      exact (priority_eq_iff hgates).mpr (hmost hgates)
    · rw [(hrun hrouted).1, (hrun hrouted').1]
    · rw [(hrun hrouted).1, (hrun hrouted').1]

namespace Reference

/-- A transaction of the first identity that offers more, and its next one. -/
def dear : Arrival := ⟨.byId, bidding 0 1000, 0, 0, 1, by decide +kernel⟩

def cheap : Arrival := ⟨.byId, bidding 1 500, 0, 0, 1, by decide +kernel⟩

/-- The cheaper transaction goes first if it comes through the server. -/
theorem cheap_first : ¬RouteBlind primitives (Transition.run (perform primitives) new [])
    [dear, cheap] := by
  intro h
  have hsame := h.ordered [(dear, .gossip), (cheap, .gossip)] [(dear, .gossip), (cheap, .rpc)] rfl
    rfl .byId
  have hgossip : ((Transition.run (offer primitives) new
      [(dear, .gossip), (cheap, .gossip)]).getOrderedTransactions .byId).map Transaction.fee =
        [1000, 500] := by decide +kernel
  have hrpc : ((Transition.run (offer primitives) new
      [(dear, .gossip), (cheap, .rpc)]).getOrderedTransactions .byId).map Transaction.fee =
        [500, 1000] := by decide +kernel
  rw [Transition.run_nil] at hsame
  rw [hsame, hrpc] at hgossip
  exact absurd hgossip (by decide)

end Reference

end Opolys

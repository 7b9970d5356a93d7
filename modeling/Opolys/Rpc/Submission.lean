import Opolys.Ceremony.Json
import Opolys.Library.Hex
import Opolys.Library.Transition
import Opolys.Node.Refining
import Opolys.Rpc.Access
import Opolys.Rpc.Server

/-!
# Blocks from miners outside of the node

A miner sends a block to the server, whose handler decodes it, hands it to a channel, and waits for
some time for the answer. Another task takes the blocks out of the channel one by one and applies
them. The handlers of several requests, that task and the rest of the node take turns.

* `submittedBlock` : what the handler decodes.
* `Submissions.step` : the handlers, the channel and the task behind it.
* `submissions_answered` : the answers tell what has become of the blocks.
-/

namespace Opolys

open Codec (Borsh)
open Effect (bind_eq_ok check_bind_eq_ok)

/-! ## The handler -/

namespace JsonRpcError

def invalidParams (msg : String) : JsonRpcError := { code := -32602, message := msg }

def internalError (msg : String) : JsonRpcError := { code := -32603, message := msg }

end JsonRpcError

/-- Require a string parameter at index 0. -/
def requireStringParam (params : Json JsonNumber) (name : String) : Except JsonRpcError String :=
  match params with
  | .array [] => .error (.invalidParams ("Missing " ++ name ++ " parameter"))
  | .array (.string text :: _) => .ok text
  | .array _ => .error (.invalidParams (name ++ " must be a string"))
  | _ => .error (.invalidParams ("Expected params array with " ++ name))

/-- The decoders that the handler uses. The texts of their errors are theirs. -/
structure Decoders where
  hexDecode : String → Except String (List UInt8)
  fromSlice : List UInt8 → Except String Block
  /-- Hexadecimal digits are read two by two. -/
  hexDecode_eq_ok : ∀ text bytes, hexDecode text = .ok bytes ↔ Hex.bytes text.toList = .ok bytes
  /-- Reading undoes writing, and nothing else is read. -/
  fromSlice_eq_ok : ∀ bytes block, fromSlice bytes = .ok block ↔ Borsh.toVec block = some bytes

/-- The block that is sent with a request. -/
def submittedBlock (D : Decoders) (params : Json JsonNumber) : Except JsonRpcError Block := do
  let hexData ← requireStringParam params "block"
  let bytes ← (D.hexDecode hexData).mapError fun e => .invalidParams ("Invalid hex: " ++ e)
  Effect.check (bytes.length ≤ maxBlockSizeBytes)
    (.invalidParams ("Block too large: " ++ toString bytes.length ++ " bytes (max " ++
      toString maxBlockSizeBytes ++ ")"))
  (D.fromSlice bytes).mapError fun e => .invalidParams ("Invalid block: " ++ e)

structure SubmitSolutionResponse where
  height : UInt64
  blockHash : String
  status : String
deriving DecidableEq

/-- A block in the channel, with the number of the request that waits for it. -/
structure BlockSubmission where
  block : Block
  reply : ℕ

/-- How many blocks the channel holds. The handlers of further ones wait in front of it. -/
def blockChannelCapacity : ℕ := 32

/-- The answer to a request whose time has run out. -/
def submissionTimedOut : JsonRpcError :=
  .internalError "Timed out waiting for block submission result"

/-- The requests with a block, and what has become of them. -/
structure Submissions where
  node : OpolysNode
  chainInfo : ChainInfo
  /-- What is in the channel, and behind it what waits for a place in it. -/
  channel : List BlockSubmission
  /-- The parameters of all requests so far. A request has its place here as its number. -/
  requests : List (Json JsonNumber)
  answers : List (ℕ × Except JsonRpcError SubmitSolutionResponse)
  /-- The blocks that have been applied, with the numbers of their requests. -/
  applied : List (ℕ × Block)

/-- What happens next. -/
inductive SubmissionEvent where
  | request (params : Json JsonNumber)
  /-- The task behind the channel takes a block. -/
  | process (env : Env)
  /-- The time of a request has run out. -/
  | timeOut (reply : ℕ)
  /-- Another task has changed the node, or has renewed the snapshot. -/
  | meanwhile (node : OpolysNode) (chainInfo : ChainInfo)

namespace Submissions

def new (node : OpolysNode) (chainInfo : ChainInfo) : Submissions where
  node := node
  chainInfo := chainInfo
  channel := []
  requests := []
  answers := []
  applied := []

def answered (s : Submissions) (reply : ℕ) : Bool := s.answers.any fun answer => answer.1 == reply

/-- Answer a request. A handler that has answered does not listen any more. -/
def answer (s : Submissions) (reply : ℕ) (result : Except JsonRpcError SubmitSolutionResponse) :
    Submissions :=
  if s.answered reply then s else { s with answers := s.answers ++ [(reply, result)] }

/-- The handler up to the channel. -/
def handleSubmitSolution (D : Decoders) (params : Json JsonNumber) (s : Submissions) :
    Submissions :=
  let reply := s.requests.length
  let s := { s with requests := s.requests ++ [params] }
  match submittedBlock D params with
  | .error e => s.answer reply (.error e)
  | .ok block => { s with channel := s.channel ++ [⟨block, reply⟩] }

/-- The next turn of the task behind the channel, which sleeps while the channel is empty. -/
def processBlock (P : Primitives) (env : Env) (s : Submissions) : Submissions :=
  match s.channel with
  | [] => s
  | submission :: channel =>
    let height := submission.block.header.height
    match applyBlock P env submission.block s.node with
    | .ok hash node =>
      let chainInfo := chainStateToInfo node.chain
      let node := match node.createBlockAttestation P height hash with
        | none => node
        | some attestation => node.hearAttestation P attestation
      { s with
        node
        chainInfo
        channel
        applied := s.applied ++ [(submission.reply, submission.block)] }.answer submission.reply
          (.ok { height, blockHash := hash.toHex, status := "accepted" })
    | .error e node =>
      { s with node, channel }.answer submission.reply (.error (.internalError e))

/-- A handler gives up. Its time runs from when its block is in the channel. -/
def expire (reply : ℕ) (s : Submissions) : Submissions :=
  if reply < s.requests.length ∧
      ((s.channel.drop blockChannelCapacity).all fun submission => submission.reply != reply) then
    s.answer reply (.error submissionTimedOut)
  else s

def step (P : Primitives) (D : Decoders) (s : Submissions) : SubmissionEvent → Submissions
  | .request params => s.handleSubmitSolution D params
  | .process env => s.processBlock P env
  | .timeOut reply => s.expire reply
  | .meanwhile node chainInfo => { s with node, chainInfo }

end Submissions

/-! ## What is decoded -/

section Decoding

variable {D : Decoders} {params : Json JsonNumber} {block : Block}

end Decoding

namespace Submissions

/-- A request whose block is accepted is told so. -/
def acceptance (P : Primitives) (block : Block) : SubmitSolutionResponse where
  height := block.header.height
  blockHash := (computeBlockHash P block.header).toHex
  status := "accepted"

/-- A request came with a block. -/
def Brought (D : Decoders) (s : Submissions) (reply : ℕ) (block : Block) : Prop :=
  ∃ params, s.requests[reply]? = some params ∧ submittedBlock D params = .ok block

/-- The requests whose blocks are applied or in the channel, in that order. -/
def taken (s : Submissions) : List ℕ :=
  s.applied.map Prod.fst ++ s.channel.map BlockSubmission.reply

/-- What holds of the answers and the blocks all the time. -/
structure Sound (P : Primitives) (D : Decoders) (s : Submissions) : Prop where
  /-- Blocks are taken in the order in which they arrive. -/
  inOrder : s.taken.Pairwise (· < ·)
  queued : ∀ submission ∈ s.channel, s.Brought D submission.reply submission.block
  brought : ∀ entry ∈ s.applied, s.Brought D entry.1 entry.2
  once : (s.answers.map Prod.fst).Nodup
  known : ∀ answer ∈ s.answers, answer.1 < s.requests.length
  /-- Acceptance is said of applied blocks only. -/
  accepted : ∀ reply response, (reply, .ok response) ∈ s.answers →
    ∃ block, (reply, block) ∈ s.applied ∧ response = acceptance P block
  /-- While a block is in the channel nothing else than that the time has run out is said. -/
  patient : ∀ submission ∈ s.channel, ∀ result, (submission.reply, result) ∈ s.answers →
    result = .error submissionTimedOut
  /-- A request whose block is applied is told so, unless its time has run out before. -/
  told : ∀ reply block, (reply, block) ∈ s.applied →
    (reply, .ok (acceptance P block)) ∈ s.answers ∨
      (reply, .error submissionTimedOut) ∈ s.answers

variable {P : Primitives} {D : Decoders} {s : Submissions}

theorem answered_eq_true {reply : ℕ} :
    s.answered reply = true ↔ ∃ result, (reply, result) ∈ s.answers := by
  unfold answered
  rw [List.any_eq_true]
  constructor
  · rintro ⟨⟨other, result⟩, hmem, heq⟩
    obtain rfl : other = reply := by simpa using heq
    exact ⟨result, hmem⟩
  · rintro ⟨result, hmem⟩
    exact ⟨(reply, result), hmem, by simp⟩

theorem Brought.lt {reply : ℕ} {block : Block} (h : s.Brought D reply block) :
    reply < s.requests.length := by
  obtain ⟨params, hparams, -⟩ := h
  exact (List.getElem?_eq_some_iff.mp hparams).1

/-- What a request came with does not change when others come. -/
theorem Brought.append {reply : ℕ} {block : Block} (h : s.Brought D reply block) {s' : Submissions}
    {params : List (Json JsonNumber)} (hrequests : s'.requests = s.requests ++ params) :
    s'.Brought D reply block := by
  have hlt := h.lt
  obtain ⟨sent, hsent, hblock⟩ := h
  refine ⟨sent, ?_, hblock⟩
  rw [hrequests, List.getElem?_append_left hlt, hsent]

theorem Sound.taken_lt (h : s.Sound P D) : ∀ reply ∈ s.taken, reply < s.requests.length := by
  intro reply hreply
  rcases List.mem_append.mp hreply with hmem | hmem
  · obtain ⟨entry, hentry, rfl⟩ := List.mem_map.mp hmem
    exact (h.brought entry hentry).lt
  · obtain ⟨submission, hsubmission, rfl⟩ := List.mem_map.mp hmem
    exact (h.queued submission hsubmission).lt

theorem sound_new (P : Primitives) (D : Decoders) (node : OpolysNode) (chainInfo : ChainInfo) :
    (new node chainInfo).Sound P D where
  inOrder := List.Pairwise.nil
  queued := by simp [new]
  brought := by simp [new]
  once := List.nodup_nil
  known := by simp [new]
  accepted := by simp [new]
  patient := by simp [new]
  told := by simp [new]

/-- A request without an answer is given one. -/
theorem Sound.once_append (h : s.Sound P D) {reply : ℕ}
    (hfresh : ∀ result, (reply, result) ∉ s.answers)
    (result : Except JsonRpcError SubmitSolutionResponse) :
    ((s.answers ++ [(reply, result)]).map Prod.fst).Nodup := by
  rw [List.map_append, List.nodup_append]
  refine ⟨h.once, by simp, ?_⟩
  rintro other hother _ hself rfl
  obtain ⟨⟨_, told⟩, hmem, rfl⟩ := List.mem_map.mp hother
  obtain rfl : _ = reply := by simpa using hself
  exact hfresh told hmem

theorem Sound.known_append (h : s.Sound P D) {reply : ℕ} (hreply : reply < s.requests.length)
    (result : Except JsonRpcError SubmitSolutionResponse) :
    ∀ answer ∈ s.answers ++ [(reply, result)], answer.1 < s.requests.length := by
  intro answer hanswer
  rcases List.mem_append.mp hanswer with hmem | hmem
  · exact h.known answer hmem
  · rw [List.mem_singleton.mp hmem]
    exact hreply

/-- What has been told of applied blocks stays told. -/
theorem Sound.told_append (h : s.Sound P D) {reply : ℕ} {block : Block}
    (happlied : (reply, block) ∈ s.applied)
    (answers : List (ℕ × Except JsonRpcError SubmitSolutionResponse)) :
    (reply, .ok (acceptance P block)) ∈ s.answers ++ answers ∨
      (reply, .error submissionTimedOut) ∈ s.answers ++ answers :=
  (h.told reply block happlied).imp (List.mem_append_left _) (List.mem_append_left _)

/-- An error may be answered to a request whose block has not been applied, and while the block is
in the channel only that the time has run out. -/
theorem Sound.answer_error (h : s.Sound P D) {reply : ℕ} {e : JsonRpcError}
    (hreply : reply < s.requests.length)
    (hchannel : e = submissionTimedOut ∨ ∀ submission ∈ s.channel, submission.reply ≠ reply) :
    (s.answer reply (.error e)).Sound P D := by
  unfold answer
  split
  · exact h
  · rename_i hfresh
    have hnone : ∀ result, (reply, result) ∉ s.answers := fun result hmem =>
      hfresh (answered_eq_true.mpr ⟨result, hmem⟩)
    constructor
    · exact h.inOrder
    · exact h.queued
    · exact h.brought
    · exact h.once_append hnone _
    · exact h.known_append hreply _
    · intro other response hmem
      rcases List.mem_append.mp hmem with hmem | hmem
      · exact h.accepted other response hmem
      · simp at hmem
    · intro submission hsubmission result hmem
      rcases List.mem_append.mp hmem with hmem | hmem
      · exact h.patient submission hsubmission result hmem
      · obtain ⟨hself, rfl⟩ : submission.reply = reply ∧ result = .error e := by simpa using hmem
        rcases hchannel with rfl | habsent
        · rfl
        · exact absurd hself (habsent submission hsubmission)
    · intro other block hmem
      exact h.told_append hmem _

theorem Sound.expire (h : s.Sound P D) (reply : ℕ) : (s.expire reply).Sound P D := by
  unfold Submissions.expire
  split
  · rename_i hsent
    exact h.answer_error hsent.1 (Or.inl rfl)
  · exact h

/-- One more request has come. -/
theorem Sound.arrive (h : s.Sound P D) (params : Json JsonNumber) :
    { s with requests := s.requests ++ [params] }.Sound P D where
  inOrder := h.inOrder
  queued submission hsubmission := (h.queued submission hsubmission).append rfl
  brought entry hentry := (h.brought entry hentry).append rfl
  once := h.once
  known answer hanswer := by
    have hlt := h.known answer hanswer
    rw [List.length_append]
    omega
  accepted := h.accepted
  patient := h.patient
  told := h.told

/-- A block that has just come is put behind all others. -/
theorem Sound.enqueue (h : s.Sound P D) {reply : ℕ} {block : Block}
    (hbrought : s.Brought D reply block) (hlast : ∀ other ∈ s.taken, other < reply)
    (hfresh : ∀ result, (reply, result) ∉ s.answers) :
    { s with channel := s.channel ++ [(⟨block, reply⟩ : BlockSubmission)] }.Sound P D where
  inOrder := by
    unfold taken
    dsimp only
    rw [List.map_append, ← List.append_assoc, List.pairwise_append]
    refine ⟨h.inOrder, by simp, ?_⟩
    intro other hother last hself
    obtain rfl : last = reply := by simpa using hself
    exact hlast other hother
  queued submission hsubmission := by
    rcases List.mem_append.mp hsubmission with hmem | hmem
    · exact h.queued submission hmem
    · rw [List.mem_singleton.mp hmem]
      exact hbrought
  brought := h.brought
  once := h.once
  known := h.known
  accepted := h.accepted
  patient submission hsubmission result hanswer := by
    rcases List.mem_append.mp hsubmission with hmem | hmem
    · exact h.patient submission hmem result hanswer
    · rw [List.mem_singleton.mp hmem] at hanswer
      exact absurd hanswer (hfresh result)
  told := h.told

theorem Sound.handleSubmitSolution (h : s.Sound P D) (params : Json JsonNumber) :
    (s.handleSubmitSolution D params).Sound P D := by
  have harrived := h.arrive params
  have hplace : (s.requests ++ [params])[s.requests.length]? = some params := by simp
  unfold Submissions.handleSubmitSolution
  dsimp only
  split
  · refine harrived.answer_error (by simp) (Or.inr ?_)
    intro submission hsubmission
    exact ((h.queued submission hsubmission).lt).ne
  · rename_i block hblock
    refine harrived.enqueue ⟨params, hplace, hblock⟩ h.taken_lt ?_
    intro result hanswer
    exact absurd (h.known _ hanswer) (lt_irrefl _)

/-- The first block leaves the channel without having been applied. -/
theorem Sound.drop (h : s.Sound P D) {submission : BlockSubmission}
    {channel : List BlockSubmission} (hchannel : s.channel = submission :: channel)
    (node : OpolysNode) : { s with node, channel }.Sound P D where
  inOrder := by
    have horder := h.inOrder
    unfold taken at horder ⊢
    rw [hchannel, List.map_cons] at horder
    exact horder.sublist ((List.sublist_cons_self _ _).append_left _)
  queued other hother := h.queued other (by rw [hchannel]; exact List.mem_cons_of_mem _ hother)
  brought := h.brought
  once := h.once
  known := h.known
  accepted := h.accepted
  patient other hother := h.patient other (by rw [hchannel]; exact List.mem_cons_of_mem _ hother)
  told := h.told

/-- A block in the channel is in front of the ones behind it, and behind those that are applied. -/
theorem Sound.front_lt (h : s.Sound P D) {submission : BlockSubmission}
    {channel : List BlockSubmission} (hchannel : s.channel = submission :: channel) :
    (∀ other ∈ channel, submission.reply < other.reply) ∧
      ∀ entry ∈ s.applied, entry.1 < submission.reply := by
  have horder := h.inOrder
  unfold taken at horder
  rw [hchannel, List.map_cons, List.pairwise_append, List.pairwise_cons] at horder
  obtain ⟨-, ⟨hbehind, -⟩, hbefore⟩ := horder
  constructor
  · intro other hother
    exact hbehind other.reply (List.mem_map_of_mem hother)
  · intro entry hentry
    exact hbefore entry.1 (List.mem_map_of_mem hentry) submission.reply (by simp)

theorem Sound.brought_applied (h : s.Sound P D) {submission : BlockSubmission}
    (hmem : submission ∈ s.channel) :
    ∀ entry ∈ s.applied ++ [(submission.reply, submission.block)],
      s.Brought D entry.1 entry.2 := by
  intro entry hentry
  rcases List.mem_append.mp hentry with hold | hnew
  · exact h.brought entry hold
  · rw [List.mem_singleton.mp hnew]
    exact h.queued submission hmem

theorem Sound.inOrder_applied (h : s.Sound P D) {submission : BlockSubmission}
    {channel : List BlockSubmission} (hchannel : s.channel = submission :: channel) :
    ((s.applied ++ [(submission.reply, submission.block)]).map Prod.fst ++
      channel.map BlockSubmission.reply).Pairwise (· < ·) := by
  have hsame := h.inOrder
  unfold taken at hsame
  rw [hchannel] at hsame
  simpa using hsame

/-- The first block leaves the channel because it has been applied, and its request is told so. -/
theorem Sound.apply (h : s.Sound P D) {submission : BlockSubmission}
    {channel : List BlockSubmission} (hchannel : s.channel = submission :: channel)
    (node : OpolysNode) (chainInfo : ChainInfo) :
    ({ s with
      node
      chainInfo
      channel
      applied := s.applied ++ [(submission.reply, submission.block)] }.answer submission.reply
        (.ok (acceptance P submission.block))).Sound P D := by
  have hfirst : submission ∈ s.channel := by rw [hchannel]; exact List.mem_cons_self
  have hbrought := h.queued submission hfirst
  have hdropped := h.drop hchannel node
  have hfront := h.front_lt hchannel
  have happlied := h.brought_applied hfirst
  have horder := h.inOrder_applied hchannel
  unfold answer
  split
  · -- The handler has given up before.
    rename_i hanswered
    obtain ⟨result, hresult⟩ := answered_eq_true.mp hanswered
    have hlate := h.patient submission hfirst result hresult
    rw [hlate] at hresult
    refine ⟨horder, hdropped.queued, happlied, h.once, h.known, ?_, hdropped.patient, ?_⟩
    · intro reply response hmem
      obtain ⟨block, hblock, hresponse⟩ := h.accepted reply response hmem
      exact ⟨block, List.mem_append_left _ hblock, hresponse⟩
    · intro reply block hmem
      rcases List.mem_append.mp hmem with hmem | hmem
      · exact h.told reply block hmem
      · obtain ⟨rfl, rfl⟩ : reply = submission.reply ∧ block = submission.block := by
          simpa using hmem
        exact Or.inr hresult
  · rename_i hfresh
    have hnone : ∀ result, (submission.reply, result) ∉ s.answers := fun result hmem =>
      hfresh (answered_eq_true.mpr ⟨result, hmem⟩)
    refine ⟨horder, hdropped.queued, happlied, h.once_append hnone _,
      h.known_append hbrought.lt _, ?_, ?_, ?_⟩
    · intro reply response hmem
      rcases List.mem_append.mp hmem with hmem | hmem
      · obtain ⟨block, hblock, hresponse⟩ := h.accepted reply response hmem
        exact ⟨block, List.mem_append_left _ hblock, hresponse⟩
      · obtain ⟨rfl, rfl⟩ : reply = submission.reply ∧
            response = acceptance P submission.block := by
          simpa using hmem
        exact ⟨submission.block, by simp, rfl⟩
    · intro other hother result hmem
      rcases List.mem_append.mp hmem with hmem | hmem
      · exact hdropped.patient other hother result hmem
      · have hself : other.reply = submission.reply := by
          simpa using congrArg Prod.fst (List.mem_singleton.mp hmem)
        exact absurd hself (hfront.1 other hother).ne'
    · intro reply block hmem
      rcases List.mem_append.mp hmem with hmem | hmem
      · exact h.told_append hmem _
      · obtain ⟨rfl, rfl⟩ : reply = submission.reply ∧ block = submission.block := by
          simpa using hmem
        exact Or.inl (by simp)

theorem Sound.processBlock (h : s.Sound P D) (env : Env) : (s.processBlock P env).Sound P D := by
  unfold Submissions.processBlock
  split
  · exact h
  · rename_i submission channel hchannel
    dsimp only
    split
    · rename_i hash node happlied
      rw [(applyBlock_eq_ok happlied).1]
      exact h.apply hchannel _ _
    · rename_i e node _
      have hfront := h.front_lt hchannel
      have hfirst : submission ∈ s.channel := by rw [hchannel]; exact List.mem_cons_self
      refine (h.drop hchannel node).answer_error (h.queued submission hfirst).lt (Or.inr ?_)
      intro other hother
      exact (hfront.1 other hother).ne'

theorem Sound.step (h : s.Sound P D) (event : SubmissionEvent) : (s.step P D event).Sound P D := by
  cases event with
  | request params => exact h.handleSubmitSolution params
  | process env => exact h.processBlock env
  | timeOut reply => exact h.expire reply
  | meanwhile node chainInfo =>
    exact ⟨h.inOrder, h.queued, h.brought, h.once, h.known, h.accepted, h.patient, h.told⟩

/-! ## No request is lost -/

/-- Every request has been answered, or its block is in the channel. -/
def Settled (s : Submissions) : Prop :=
  ∀ reply < s.requests.length, (∃ result, (reply, result) ∈ s.answers) ∨
    ∃ submission ∈ s.channel, submission.reply = reply

/-- Who is answered has an answer, and no answer is taken back. -/
theorem mem_answers_answer (s : Submissions) (reply : ℕ)
    (result : Except JsonRpcError SubmitSolutionResponse) :
    (∃ result', (reply, result') ∈ (s.answer reply result).answers) ∧
      ∀ answer ∈ s.answers, answer ∈ (s.answer reply result).answers := by
  unfold answer
  split
  · rename_i hanswered
    exact ⟨answered_eq_true.mp hanswered, fun _ hmem => hmem⟩
  · exact ⟨⟨result, by simp⟩, fun _ hmem => List.mem_append_left _ hmem⟩

@[simp] theorem requests_answer (s : Submissions) (reply : ℕ)
    (result : Except JsonRpcError SubmitSolutionResponse) :
    (s.answer reply result).requests = s.requests := by
  unfold answer
  split <;> rfl

@[simp] theorem channel_answer (s : Submissions) (reply : ℕ)
    (result : Except JsonRpcError SubmitSolutionResponse) :
    (s.answer reply result).channel = s.channel := by
  unfold answer
  split <;> rfl

/-- All requests but one are settled, and that one is answered. -/
theorem settled_answer {s : Submissions} {reply : ℕ}
    (hothers : ∀ other < s.requests.length, other ≠ reply →
      (∃ result, (other, result) ∈ s.answers) ∨ ∃ submission ∈ s.channel, submission.reply = other)
    (result : Except JsonRpcError SubmitSolutionResponse) : (s.answer reply result).Settled := by
  intro other hlt
  rw [requests_answer] at hlt
  obtain ⟨hanswered, hkept⟩ := mem_answers_answer s reply result
  by_cases hother : other = reply
  · rw [hother]
    exact Or.inl hanswered
  · rw [channel_answer]
    exact (hothers other hlt hother).imp_left fun ⟨result', hmem⟩ => ⟨result', hkept _ hmem⟩

theorem Settled.handleSubmitSolution (h : s.Settled) (params : Json JsonNumber) :
    (s.handleSubmitSolution D params).Settled := by
  have hothers : ∀ other < (s.requests ++ [params]).length, other ≠ s.requests.length →
      (∃ result, (other, result) ∈ s.answers) ∨
        ∃ submission ∈ s.channel, submission.reply = other := by
    intro other hlt hother
    rw [List.length_append, List.length_singleton] at hlt
    exact h other (by omega)
  unfold Submissions.handleSubmitSolution
  dsimp only
  split
  · exact settled_answer hothers _
  · intro other hlt
    by_cases hother : other = s.requests.length
    · exact Or.inr ⟨_, List.mem_append_right _ (List.mem_singleton_self _), hother.symm⟩
    · rcases hothers other hlt hother with hanswered | ⟨submission, hmem, hreply⟩
      · exact Or.inl hanswered
      · exact Or.inr ⟨submission, List.mem_append_left _ hmem, hreply⟩

theorem Settled.processBlock (h : s.Settled) (env : Env) : (s.processBlock P env).Settled := by
  unfold Submissions.processBlock
  split
  · exact h
  · rename_i submission channel hchannel
    have hothers : ∀ other < s.requests.length, other ≠ submission.reply →
        (∃ result, (other, result) ∈ s.answers) ∨
          ∃ waiting ∈ channel, waiting.reply = other := by
      intro other hlt hother
      rcases h other hlt with hanswered | ⟨waiting, hmem, hreply⟩
      · exact Or.inl hanswered
      · rw [hchannel, List.mem_cons] at hmem
        rcases hmem with rfl | hmem
        · exact absurd hreply.symm hother
        · exact Or.inr ⟨waiting, hmem, hreply⟩
    dsimp only
    split
    · exact settled_answer hothers _
    · exact settled_answer hothers _

theorem Settled.step (h : s.Settled) (event : SubmissionEvent) : (s.step P D event).Settled := by
  cases event with
  | request params => exact h.handleSubmitSolution params
  | process env => exact h.processBlock env
  | timeOut reply =>
    unfold Submissions.step Submissions.expire
    dsimp only
    split
    · exact settled_answer (fun other hlt _ => h other hlt) _
    · exact h
  | meanwhile node chainInfo => exact h

/-! ## The requests of a run -/

/-- The parameters of the requests among some events. -/
def sent (run : List SubmissionEvent) : List (Json JsonNumber) :=
  run.filterMap fun
    | .request params => some params
    | _ => none

end Submissions

namespace Reference

end Reference

open Reference

namespace Submissions

/-- That the time has run out says nothing of the block: it may be applied all the same. -/
theorem applied_after_timeout {P : Primitives} {D : Decoders} {node node' : OpolysNode}
    {chainInfo : ChainInfo} {params : Json JsonNumber} {block : Block} {env : Env} {hash : Hash}
    (hblock : submittedBlock D params = .ok block)
    (happlied : applyBlock P env block node = .ok hash node') :
    let s := Transition.run (step P D) (new node chainInfo)
      [.request params, .timeOut 0, .process env]
    s.applied = [(0, block)] ∧ s.answers = [(0, .error submissionTimedOut)] := by
  simp [Transition.run, step, new, Submissions.handleSubmitSolution, hblock, Submissions.expire,
    blockChannelCapacity, answer, answered, Submissions.processBlock, happlied]

end Submissions

end Opolys

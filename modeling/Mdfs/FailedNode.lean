import Mdfs.Job.Threads
import Mdfs.MaRTA.JobConnection
import Mdfs.MaRTA.Planning
import Mdfs.Nodo.Reduce

/-!
# The node that failed, from a node to MaRTA

The reply of a node to a reduce that failed names a node; the Job writes the name into
the result it sends to MaRTA, or the text `ErrorAlConectar` when it did not reach the
node of the reduce. MaRTA takes that text for the final node of the reduce and looks the
name up among its nodes.

* `onReduceResult_eq`: what MaRTA does with a result that names a node.
* `failed_node_identified`: the node named is the node deactivated, but for a node whose
  name is the text.
-/

namespace Mdfs

open Lib Wire

namespace MaRTA

/-- The result in a packet of a Job, as `recvResult`, `desserializeMapResult` and
`desserializaReduceResult` decode it; none for an unknown command. -/
def readResult : Reader (Option Result) := do
  let resultFrom ← u8
  if resultFrom = COMMAND_MAP then
    let result ← u8
    let idMap ← u16
    pure (some (.map idMap (result ≠ 0)))
  else if resultFrom = COMMAND_REDUCE then
    let result ← u8
    let idReduce ← u16
    if result ≠ 0 then pure (some (.reduce idReduce none))
    else
      let nodeID ← prefixed16
      pure (some (.reduce idReduce (some (upToNul nodeID))))
  else pure none

/-- What MaRTA does with the packet of a reduce result of job `t`: the name that
`desserializaReduceResult` returns, and the world after it. -/
def onReduceResult (t : ℕ) (w : World) (job : Job) (packet : Packet) : Option (Except Exit (Option CStr) × World) :=
  match readResult.run packet with
  | some (some (.reduce idReduce failed), _) =>
    (desserializaReduceResult job idReduce failed).exec (serve t) w [.done, .done]
  | _ => none

/-- The nodes with one reduce less on the `k`-th, and with the `n`-th not active. -/
def relieved (nodes : List Node) (k : ℕ) : List Node := nodes.modify k fun node =>
    { node with reduces := node.reduces - 1 }

def deactivated (nodes : List Node) (n : ℕ) : List Node := nodes.modify n fun node => { node with active := false }

/-- **The node `n` is identified** by the result: its name is returned, it is deactivated,
and of the other nodes only the final node `k` of the reduce has one reduce less. -/
def Identified (t : ℕ) (w : World) (job : Job) (packet : Packet) (k n : ℕ) : Prop :=
  ∃ node w', w.nodes[n]? = some node ∧ onReduceResult t w job packet = some (.ok (some node.name), w') ∧
    w'.nodes = deactivated (relieved w.nodes k) n

end MaRTA

variable {t k n : ℕ} {w : MaRTA.World} {job : MaRTA.Job} {reduce : MaRTA.Reduce} {order : Job.Reduce}
  {final node : MaRTA.Node} {name own routine : CStr}

/-! ## Through the Job -/

/-- The bytes of a packet are those that are read from it. -/
theorem bytesAt_append (past : ℕ → UInt8) (a bs c : Packet) :
    Job.bytesAt past (a ++ bs ++ c) a.length bs.length = bs := by
  unfold Job.bytesAt Job.byteAt
  refine List.ext_getElem (by simp) fun i hi hi' => ?_
  rw [List.getElem_map, List.getElem_range, List.getD_eq_getElem?_getD, List.getElem?_append_left (by simp; omega),
    List.getElem?_append_right (by omega), Nat.add_sub_cancel_left, List.getElem?_eq_getElem hi', Option.getD_some]

/-- A node's reply that names a node, as the Job sends it on. -/
theorem confirmarReduce_reply (hname : MaRTA.Short name) (past : ℕ → UInt8) :
    Job.confirmarReduce past order 0 (Nodo.reduceReply own false (some name)) 1 = Job.failReduce order name := by
  have hsize := toNat_toUInt16 hname.length_lt
  have hreply : Nodo.reduceReply own false (some name) = [0] ++ be16 name.length.toUInt16 ++ name := by
    simp only [Nodo.reduceReply, Option.getD_some, hname.take]
    rfl
  have hlen : Job.bytesAt past (Nodo.reduceReply own false (some name)) 1 2 = be16 name.length.toUInt16 := by
    rw [hreply]
    exact bytesAt_append past [0] (be16 name.length.toUInt16) name
  have htext : Job.bytesAt past (Nodo.reduceReply own false (some name)) (1 + 2) name.length = name := by
    have hread := bytesAt_append past ([0] ++ be16 name.length.toUInt16) name []
    rw [List.append_nil] at hread
    rw [hreply]
    exact hread
  have hvalue : (value (be16 name.length.toUInt16)).toUInt16.toNat = name.length := by
    rw [value_be16, hsize, hsize]
  rw [Job.confirmarReduce, if_neg (by decide)]
  simp only [hlen, hvalue, htext, upToNul_eq hname.clean]

/-- A peer that is not reached: no connection, or no reply. -/
def Job.Peer.Unreached (peer : Job.Peer) : Prop := peer.connected = false ∨ peer.reply = none

/-- **What the Job sends** when the node's reply names a node. -/
theorem atenderReducer_reply (hname : MaRTA.Short name) (past : ℕ → UInt8) {peer : Job.Peer}
    (hconn : peer.connected = true)
    (hreply : peer.reply = some (Nodo.reduceReply own false (some name))) :
    (Job.atenderReducer routine past peer order).marta = [Job.failReduce order name] := by
  have hhand := socketHandshakeToServer_ne_zero peer.greeting HANDSHAKE_NODO HANDSHAKE_JOB
  have hbyte : Job.byteAt past (Nodo.reduceReply own false (some name)) 0 = 0 := rfl
  simp only [Job.atenderReducer, if_pos hconn, if_neg hhand, hreply, hbyte, confirmarReduce_reply hname]

/-- **What the Job sends** when it does not reach the node. -/
theorem atenderReducer_unreached (past : ℕ → UInt8) {peer : Job.Peer} (hpeer : peer.Unreached) :
    (Job.atenderReducer routine past peer order).marta = [Job.failReduce order Job.errorAlConectar] := by
  have hhand := socketHandshakeToServer_ne_zero peer.greeting HANDSHAKE_NODO HANDSHAKE_JOB
  unfold Job.atenderReducer
  rcases hpeer with hconn | hreply
  · rw [if_neg (by rw [hconn]; exact Bool.false_ne_true)]
  · split
    · simp only [if_neg hhand, hreply]
    · rfl

/-! ## In MaRTA -/

/-- **What MaRTA reads** of a reduce that failed. -/
theorem readResult_failReduce (hname : MaRTA.Short name) :
    MaRTA.readResult.run (Job.failReduce order name) = some (some (.reduce order.reduceID (some name)), []) := by
  have hpacket : Job.failReduce order name = [COMMAND_REDUCE] ++ ([0] ++ (be16 order.reduceID ++
      (be16 name.length.toUInt16 ++ name))) := by
    simp only [Job.failReduce, hname.take, List.append_assoc]
    rfl
  refine Reads.run ?_
  rw [hpacket]
  unfold MaRTA.readResult
  apply reads_bind (reads_u8 COMMAND_REDUCE)
  apply reads_bind (reads_u8 0)
  apply reads_bind (reads_u16 order.reduceID)
  apply reads_map (reads_prefixed16 hname.length_lt)
  rw [upToNul_eq hname.clean]

/-- A node keeps its place and its name when a reduce is taken off. -/
theorem getElem?_relieved (hn : w.nodes[n]? = some node) (k : ℕ) :
    ∃ node', (MaRTA.relieved w.nodes k)[n]? = some node' ∧ node'.name = node.name := by
  unfold MaRTA.relieved
  rw [List.getElem?_modify, hn]
  by_cases hkn : k = n
  · exact ⟨{ node with reduces := node.reduces - 1 }, by simp [hkn], rfl⟩
  · exact ⟨node, by simp [hkn], rfl⟩

/-- **What MaRTA does** with a reduce that failed: the node named, or the final node for
the text `ErrorAlConectar`, is deactivated and returned. -/
theorem onReduceResult_eq (h : MaRTA.Distinct w.nodes) (hreduce : MaRTA.reduceOfResult job order.reduceID = some reduce)
    (hk : w.nodes[k]? = some final) (hfinal : final.name = reduce.finalNode) (hn : w.nodes[n]? = some node)
    (hname : MaRTA.Short name)
    (hnode : node.name = if name = MaRTA.ERROR_AL_CONECTAR then reduce.finalNode else name) :
    MaRTA.Identified t w job (Job.failReduce order name) k n := by
  have hfindk : MaRTA.findNode w.nodes reduce.finalNode = some k := hfinal ▸ h.findNode hk
  have hremove : MaRTA.removeReduceNode w.nodes reduce.finalNode = some (MaRTA.relieved w.nodes k) := by
    rw [MaRTA.removeReduceNode, hfindk]
    rfl
  -- the second lookup finds the node in the list that the first change leaves
  have hdist : MaRTA.Distinct (MaRTA.relieved w.nodes k) :=
    h.modify (fun node => { node with reduces := node.reduces - 1 }) (fun _ => rfl) k
  obtain ⟨node', hn', hname'⟩ := getElem?_relieved hn k
  have hfindn : MaRTA.findNode (MaRTA.relieved w.nodes k) node.name = some n := hname' ▸ hdist.findNode hn'
  have hdeactivate : MaRTA.deactivateNode (MaRTA.relieved w.nodes k) node.name =
      some (MaRTA.deactivated (MaRTA.relieved w.nodes k) n) := by
    rw [MaRTA.deactivateNode, hfindn]
    rfl
  set u := MaRTA.World.say { w with nodes := MaRTA.relieved w.nodes k } t fun l =>
    l.reduceRemoved (MaRTA.nameAt w.nodes k)
    with hu
  have hfirst : MaRTA.serve t w (.removeReduceNode reduce.finalNode) .done = some ((), u) := by
    simp only [MaRTA.serve, hfindk, hremove, Option.bind_some, Option.map_some, hu]
  have hsecond : MaRTA.serve t u (.deactivateNode node.name) .done =
      some ((), { u with nodes := MaRTA.deactivated (MaRTA.relieved w.nodes k) n }) := by
    have hnodes : u.nodes = MaRTA.relieved w.nodes k := rfl
    simp only [MaRTA.serve, hnodes, hdeactivate, Option.map_some]
  refine ⟨node, { u with nodes := MaRTA.deactivated (MaRTA.relieved w.nodes k) n }, hn, ?_, rfl⟩
  simp only [MaRTA.onReduceResult, readResult_failReduce hname, MaRTA.desserializaReduceResult, hreduce, ← hnode]
  rw [Prog.bind_def, Prog.bind, Prog.exec, hfirst, Option.bind_some]
  change (Prog.exec _ (Prog.ask _ _) u _) = _
  rw [Prog.exec, ← hnode, hsecond]
  rfl

/-- A result identifies one node. -/
theorem MaRTA.Identified.unique (h : MaRTA.Distinct w.nodes) {packet : Packet} {n' : ℕ}
    (hn : MaRTA.Identified t w job packet k n)
    (hn' : MaRTA.Identified t w job packet k n') : n = n' := by
  obtain ⟨node, u, hnode, hres, -⟩ := hn
  obtain ⟨node', u', hnode', hres', -⟩ := hn'
  rw [hres] at hres'
  simp only [Option.some.injEq, Prod.mk.injEq, Except.ok.injEq] at hres'
  have hfind := h.findNode hnode
  rw [hres'.1, h.findNode hnode'] at hfind
  exact (Option.some.inj hfind).symm

/-- **The failed node through the relay.** For a reduce of the job whose final node is the
`k`-th one of MaRTA, as the Job got it, and any registered node, the `n`-th one: every
reply of a node that names it makes MaRTA deactivate that node and return its name, and
every failure to reach the final node makes it deactivate the final node, if and only if
the node does not have the text `ErrorAlConectar` for its name or is the final node. -/
theorem failed_node_identified (t : ℕ) (w : MaRTA.World) (job : MaRTA.Job) (reduce : MaRTA.Reduce) (order : Job.Reduce)
    (routine : CStr) (k n : ℕ) (final node : MaRTA.Node) (h : MaRTA.Distinct w.nodes)
    (horder : Job.recvOrder (MaRTA.serializeReduceToOrder reduce) = some (.reduce order))
    (hreduce : MaRTA.reduceOfResult job reduce.id = some reduce) (hk : w.nodes[k]? = some final)
    (hfinal : final.name = reduce.finalNode) (hn : w.nodes[n]? = some node) (hname : MaRTA.Short node.name) :
    ((∀ past own peer, peer.connected = true → peer.reply = some (Nodo.reduceReply own false (some node.name)) →
        ∃ packet, (Job.atenderReducer routine past peer order).marta = [packet] ∧ MaRTA.Identified t w job packet k n) ∧
      ∀ past peer, Job.Peer.Unreached peer →
        ∃ packet, (Job.atenderReducer routine past peer order).marta = [packet] ∧ MaRTA.Identified t w job packet k k) ↔
      (node.name = MaRTA.ERROR_AL_CONECTAR → n = k) := by
  have hid : order.reduceID = reduce.id := by
    unfold MaRTA.serializeReduceToOrder at horder
    simp only [List.append_assoc] at horder
    rw [← List.append_assoc] at horder
    exact Job.reduceID_of_recvOrder horder
  rw [← hid] at hreduce
  have hmarker : MaRTA.Short MaRTA.ERROR_AL_CONECTAR := by decide
  -- the text itself identifies the final node
  have htext : MaRTA.Identified t w job (Job.failReduce order MaRTA.ERROR_AL_CONECTAR) k k :=
    onReduceResult_eq h hreduce hk hfinal hk hmarker (by rw [if_pos rfl, hfinal])
  refine ⟨fun hall hclash => ?_, fun hclear => ⟨fun past own peer hconn hreply => ?_, fun past peer hpeer => ?_⟩⟩
  · let peer : Job.Peer := ⟨true, ⟨none, false, none⟩, true, some (Nodo.reduceReply [] false (some node.name))⟩
    obtain ⟨packet, hsent, hident⟩ := hall.1 (fun _ => 0) [] peer rfl rfl
    rw [atenderReducer_reply hname (fun _ => 0) rfl rfl, List.cons.injEq] at hsent
    rw [← hsent.1, hclash] at hident
    exact MaRTA.Identified.unique h hident htext
  · refine ⟨_, atenderReducer_reply hname past hconn hreply, ?_⟩
    by_cases hclash : node.name = MaRTA.ERROR_AL_CONECTAR
    · rw [hclear hclash, hclash]
      exact htext
    · exact onReduceResult_eq h hreduce hk hfinal hn hname (if_neg hclash).symm
  · exact ⟨_, atenderReducer_unreached past hpeer, htext⟩

/-- Two nodes, the second with a reduce. -/
def twoNodes (name : CStr) : MaRTA.World where
  nodes := [⟨name, cstr "10.0.0.1", 6001, true, [], 0⟩, ⟨cstr "Nodo2", cstr "10.0.0.2", 6002, true, [], 1⟩]
  talk := fun _ => .start

/-- A reduce on the second of them. -/
def onNodo2 : MaRTA.Reduce where
  id := 1
  temps := []
  finalNode := cstr "Nodo2"
  nodeIP := cstr "10.0.0.2"
  nodePort := 6002
  tempResultName := .strcpy (cstr "Job7-Red1.txt") (by decide)

/-- A job with this reduce. -/
def jobOnNodo2 : MaRTA.Job := { MaRTA.createJob 7 true (cstr "/r") [] with partialReduces := [onNodo2] }

theorem distinct_twoNodes {name : CStr} (h : stringEqualsIgnoreCase name (cstr "Nodo2") = false) :
    MaRTA.Distinct (twoNodes name).nodes :=
  List.pairwise_cons.2 ⟨fun b hb => by rw [List.mem_singleton.1 hb]; exact h, List.pairwise_singleton _ _⟩

/-- The reduce as the Job has it. -/
def orderOnNodo2 : Job.Reduce := ⟨1, cstr "10.0.0.2", 6002, onNodo2.tempResultName.str, 2, [0, 0]⟩

/-- The reply of `Nodo2` that `name` failed. -/
def replyOnNodo2 (name : CStr) : Job.Peer :=
  ⟨true, ⟨none, false, none⟩, true, some (Nodo.reduceReply (cstr "Nodo2") false (some name))⟩

/-- The reply of `Nodo2` names `Nodo1`. -/
theorem failed_node_identified_nodo1 : ∃ packet,
    (Job.atenderReducer [] (fun _ => 0) (replyOnNodo2 (cstr "Nodo1")) orderOnNodo2).marta = [packet] ∧
      MaRTA.Identified 0 (twoNodes (cstr "Nodo1")) jobOnNodo2 packet 1 0 := by
  have horder : Job.recvOrder (MaRTA.serializeReduceToOrder onNodo2) = some (.reduce orderOnNodo2) := by decide +kernel
  have hall := (failed_node_identified 0 (twoNodes (cstr "Nodo1")) jobOnNodo2 onNodo2 orderOnNodo2 [] 1 0 _ _
    (distinct_twoNodes (by decide)) horder (by decide) rfl rfl rfl (by decide)).2 (by decide)
  exact hall.1 (fun _ => 0) (cstr "Nodo2") (replyOnNodo2 (cstr "Nodo1")) rfl rfl

/-- **The wrong node.** A node that is called `ErrorAlConectar` fails: the reply names it,
and MaRTA deactivates the final node of the reduce. -/
theorem wrong_node_identified : ∃ packet w',
    Job.recvOrder (MaRTA.serializeReduceToOrder onNodo2) = some (.reduce orderOnNodo2) ∧
    (Job.atenderReducer [] (fun _ => 0) (replyOnNodo2 (cstr "ErrorAlConectar")) orderOnNodo2).marta = [packet] ∧
    MaRTA.onReduceResult 0 (twoNodes (cstr "ErrorAlConectar")) jobOnNodo2 packet =
      some (.ok (some (cstr "Nodo2")), w') ∧
    w'.nodes.map MaRTA.Node.active = [true, false] ∧
    ¬MaRTA.Identified 0 (twoNodes (cstr "ErrorAlConectar")) jobOnNodo2 packet 1 0 := by
  have hwrong : ∃ w', MaRTA.onReduceResult 0 (twoNodes (cstr "ErrorAlConectar")) jobOnNodo2
      (Job.failReduce orderOnNodo2 (cstr "ErrorAlConectar")) = some (.ok (some (cstr "Nodo2")), w') ∧
      w'.nodes.map MaRTA.Node.active = [true, false] := ⟨_, rfl, rfl⟩
  obtain ⟨w', hres, hactive⟩ := hwrong
  refine ⟨Job.failReduce orderOnNodo2 (cstr "ErrorAlConectar"), w', by decide +kernel, by decide +kernel, hres,
    hactive, ?_⟩
  rintro ⟨node, u, hnode, hident, -⟩
  cases hnode
  rw [hres] at hident
  cases hident

end Mdfs

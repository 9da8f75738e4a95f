import Arancini.Ir.Deadflags

/-!
# Use lists

A port lists the nodes that read it. When `deadflags_opt_visitor` deletes the write of a flag it
removes it from the list of one port of the node it reads: the port that the name of the register
stands for, if the node is an arithmetic or an atomic operation, and none otherwise.

`use_lists_right_iff` says that the lists of a chunk are right after the pass exactly if each dead
write reads that port.
-/

namespace Arancini.Ir

/-- A `write_reg` is in the list of the port that it reads, and in no other. -/
def Packet.Linked (p : Packet) (n : NodeId) : Prop :=
  ∀ regoff regidx regname value, p.nodes[n]? = some (.writeReg regoff regidx regname value) →
    ∀ o k, (o, k, n) ∈ p.targets ↔ o = value.owner ∧ k = value.kind

/-- A chunk as it is built. -/
structure LinkedChunk extends Chunk where
  linked : ∀ p ∈ packets, ∀ n, p.Linked n

/-- What the pass is to leave of a packet, without the writes `dead` : they are in no list, the
others are where they were, and each of the other actions is left once, in order. -/
structure Packet.RightWithout (p p' : Packet) (dead : List NodeId) : Prop where
  nodes_eq : p'.nodes = p.nodes
  unlisted : ∀ n ∈ dead, ∀ o k, (o, k, n) ∉ p'.targets
  linked : ∀ n ∉ dead, p'.Linked n
  mem_actions : ∀ a, a ∈ p'.actions ↔ a ∈ p.actions ∧ a ∉ dead
  nodup : p'.actions.Nodup
  sublist : p'.actions.Sublist p.actions

/-- The pass ends, and its packets are right. -/
def LinkedChunk.Right (c : LinkedChunk) : Prop :=
  ∃ c', visitChunk c.toChunk = .ok c' ∧ c'.packets.length = c.packets.length ∧
    ∀ x ∈ (c.packets.zip c'.packets).zip (deadIn c.packets), x.1.1.RightWithout x.1.2 x.2

/-- The write reads the port that its register stands for. -/
def ReadsFlagPort (nodes : List Node) (n : NodeId) : Prop :=
  ∀ regoff regidx regname value, nodes[n]? = some (.writeReg regoff regidx regname value) →
    nodes[value.owner]?.any (·.hasFlagPorts) ∧ flagPort regname = some value.kind

/-! ## Unlinking -/

/-- The entry that is removed for a write. -/
def Removes (nodes : List Node) (n : NodeId) (x : NodeId × PortKind × NodeId) : Prop :=
  ∃ regoff regidx regname value k,
    nodes[n]? = some (.writeReg regoff regidx regname value) ∧
      nodes[value.owner]?.any (·.hasFlagPorts) ∧ flagPort regname = some k ∧ x = (value.owner, k, n)

section Unlink

variable {nodes : List Node} {targets targets' : List (NodeId × PortKind × NodeId)}

theorem mem_unlink {n : NodeId} (h : unlink nodes targets n = .ok targets')
    {x : NodeId × PortKind × NodeId} : x ∈ targets' ↔ x ∈ targets ∧ ¬Removes nodes n x := by
  unfold unlink at h
  split at h
  · next regoff regidx regname value hnode =>
    have hsame : ∀ {regoff' regidx' regname' value'},
        nodes[n]? = some (.writeReg regoff' regidx' regname' value') →
          regname' = regname ∧ value' = value := by
      intro regoff' regidx' regname' value' hnode'
      obtain ⟨-, -, rfl, rfl⟩ := Node.writeReg.inj (Option.some.inj (hnode.symm.trans hnode'))
      exact ⟨rfl, rfl⟩
    split_ifs at h with hflags
    · split at h
      · next k hk =>
        obtain rfl := Except.ok.inj h
        rw [List.mem_filter, decide_eq_true_iff]
        refine and_congr_right fun _ => not_congr ⟨fun hx => ?_, ?_⟩
        · exact ⟨regoff, regidx, regname, value, k, hnode, hflags, hk, hx⟩
        · rintro ⟨_, _, regname', value', k', hnode', -, hk', rfl⟩
          obtain ⟨rfl, rfl⟩ := hsame hnode'
          rw [Option.some.inj (hk'.symm.trans hk)]
      · exact nomatch h
    · obtain rfl := Except.ok.inj h
      refine (and_iff_left ?_).symm
      rintro ⟨_, _, regname', value', k', hnode', hflags', -⟩
      obtain ⟨rfl, rfl⟩ := hsame hnode'
      exact hflags hflags'
  · next hnode =>
    obtain rfl := Except.ok.inj h
    refine (and_iff_left ?_).symm
    rintro ⟨regoff, regidx, regname, value, k, hnode', -⟩
    exact hnode _ _ _ _ hnode'

/-- The lists after all dead writes have been removed. -/
theorem mem_foldlM_unlink {x : NodeId × PortKind × NodeId} : ∀ {dead : List NodeId}
    {targets : List (NodeId × PortKind × NodeId)},
    dead.foldlM (unlink nodes) targets = .ok targets' →
      (x ∈ targets' ↔ x ∈ targets ∧ ∀ n ∈ dead, ¬Removes nodes n x)
  | [], targets, h => by
    obtain rfl := pure_eq_ok.1 h
    exact (and_iff_left fun _ hn => absurd hn List.not_mem_nil).symm
  | n :: dead, targets, h => by
    rw [List.foldlM_cons] at h
    obtain ⟨targets₁, hn, h⟩ := bind_eq_ok.1 h
    rw [mem_foldlM_unlink h, mem_unlink hn, and_assoc, List.forall_mem_cons]

end Unlink

/-! ## Packets -/

section Packets

variable {p : Packet} {dead : List NodeId} {targets : List (NodeId × PortKind × NodeId)}

/-- What a packet is without dead writes. -/
theorem rightWithout_iff (hlinked : ∀ n, p.Linked n)
    (hdead : ∀ n ∈ dead, ∃ regoff regidx regname value,
      p.nodes[n]? = some (.writeReg regoff regidx regname value))
    (h : dead.foldlM (unlink p.nodes) p.targets = .ok targets) :
    p.RightWithout (p.without dead targets) dead ↔ ∀ n ∈ dead, ReadsFlagPort p.nodes n := by
  constructor
  · intro hright n hn regoff regidx regname value hnode
    have hnot := hright.unlisted n hn value.owner value.kind
    have hlisted := (hlinked n _ _ _ _ hnode value.owner value.kind).2 ⟨rfl, rfl⟩
    have hremoved : ∃ m ∈ dead, Removes p.nodes m (value.owner, value.kind, n) := by
      by_contra hkept
      exact hnot ((mem_foldlM_unlink h).2 ⟨hlisted, fun m hm hr => hkept ⟨m, hm, hr⟩⟩)
    obtain ⟨m, -, _, _, regname', value', k, hnode', hflags, hk, hx⟩ := hremoved
    obtain ⟨-, hx⟩ := Prod.mk.inj hx
    obtain ⟨rfl, rfl⟩ := Prod.mk.inj hx
    obtain ⟨-, -, rfl, rfl⟩ := Node.writeReg.inj (Option.some.inj (hnode.symm.trans hnode'))
    exact ⟨hflags, hk⟩
  · intro hreads
    refine ⟨rfl, fun n hn o k hmem => ?_, fun n hn regoff regidx regname value hnode o k => ?_,
      fun a => ?_, ?_, ?_⟩
    · obtain ⟨regoff, regidx, regname, value, hnode⟩ := hdead n hn
      obtain ⟨hlisted, hkept⟩ := (mem_foldlM_unlink h).1 hmem
      obtain ⟨rfl, rfl⟩ := (hlinked n _ _ _ _ hnode o k).1 hlisted
      obtain ⟨hflags, hk⟩ := hreads n hn _ _ _ _ hnode
      exact hkept n hn ⟨regoff, regidx, regname, value, _, hnode, hflags, hk, rfl⟩
    · rw [← hlinked n _ _ _ _ hnode]
      refine (mem_foldlM_unlink h).trans (and_iff_left ?_)
      rintro m hm ⟨_, _, _, _, _, -, -, -, hx⟩
      obtain ⟨-, hx⟩ := Prod.mk.inj hx
      obtain ⟨-, rfl⟩ := Prod.mk.inj hx
      exact hn hm
    · rw [Packet.without, List.mem_filter, decide_eq_true_iff]
    · exact (p.sorted.imp fun h => Nat.ne_of_lt h).filter _
    · exact List.filter_sublist

/-- What the visitor does with a packet, after the later ones. -/
theorem visitPackets_cons_ok {ps qs : List Packet} {v : Flags}
    (h : visitPackets (p :: ps) = .ok (qs, v)) : ∃ ps' w targets,
      visitPackets ps = .ok (ps', w) ∧
      (p.events.foldl handle w).delete.foldlM (unlink p.nodes) p.targets = .ok targets ∧
      qs = p.without (p.events.foldl handle w).delete targets :: ps' ∧
      v = { p.events.foldl handle w with
        delete := []
        live := (p.events.foldl handle w).newLive ++ (p.events.foldl handle w).live
        newLive := [] } := by
  rw [visitPackets] at h
  obtain ⟨⟨ps', w⟩, hps, h⟩ := bind_eq_ok.1 h
  obtain ⟨⟨p', v'⟩, hp, h⟩ := bind_eq_ok.1 h
  obtain ⟨rfl, rfl⟩ := Prod.mk.inj (pure_eq_ok.1 h)
  obtain ⟨targets, htargets, hp⟩ := bind_eq_ok.1 hp
  obtain ⟨rfl, rfl⟩ := Prod.mk.inj (pure_eq_ok.1 hp)
  exact ⟨ps', w, targets, hps, htargets, rfl, rfl⟩

/-- What the visitor knows after some packets. -/
theorem flagsInv_of_ok : ∀ {ps qs : List Packet} {v : Flags}, visitPackets ps = .ok (qs, v) →
    FlagsInv (ps.map (·.events)) [] v ∧ v.delete = []
  | [], qs, v, h => by
    obtain ⟨rfl, rfl⟩ := Prod.mk.inj (Except.ok.inj h)
    exact ⟨⟨by simp [writesFlag, written], by simp [exposed], by simp [readsFlag]⟩, rfl⟩
  | p :: ps, qs, v, h => by
    obtain ⟨ps', w, targets, hps, -, -, rfl⟩ := visitPackets_cons_ok h
    obtain ⟨hinv, hdelete⟩ := flagsInv_of_ok hps
    obtain ⟨hinv', -⟩ := foldl_handle_spec p.events hinv
    rw [List.nil_append] at hinv'
    refine ⟨⟨fun off => ?_, fun off => ?_, fun off => ?_⟩, rfl⟩
    · simp [hinv'.lastSe off, written, writesFlag]
    · simp [hinv'.live off, hinv'.newLive off, exposed, writesFlag]
    · simp [readsFlag]

/-- The writes that the visitor deletes from a packet are the dead ones. -/
theorem delete_eq {ps qs : List Packet} {w : Flags} (h : visitPackets ps = .ok (qs, w)) :
    (p.events.foldl handle w).delete = deadWrites (ps.map (·.events)) [] p.events := by
  obtain ⟨hinv, hdelete⟩ := flagsInv_of_ok h
  rw [(foldl_handle_spec p.events hinv).2, hdelete, List.nil_append]

theorem writeReg_of_mem_deadWrites {later : List (List FlagEvent)} {n : NodeId}
    (h : n ∈ deadWrites later [] p.events) : ∃ regoff regidx regname value,
      p.nodes[n]? = some (.writeReg regoff regidx regname value) := by
  obtain ⟨off, hoff⟩ := exists_write_of_mem_deadWrites h
  exact ⟨off, writesOnly_events p.toBody n off hoff⟩

/-- The packets that the pass leaves. -/
theorem right_iff_of_ok : ∀ {ps qs : List Packet} {v : Flags}, visitPackets ps = .ok (qs, v) →
    (∀ p ∈ ps, ∀ n, p.Linked n) → qs.length = ps.length ∧
      ((∀ x ∈ (ps.zip qs).zip (deadIn ps), x.1.1.RightWithout x.1.2 x.2) ↔
        ∀ x ∈ ps.zip (deadIn ps), ∀ n ∈ x.2, ReadsFlagPort x.1.nodes n)
  | [], qs, v, h, _ => by
    obtain ⟨rfl, rfl⟩ := Prod.mk.inj (Except.ok.inj h)
    exact ⟨rfl, iff_of_true (fun _ h => absurd h List.not_mem_nil)
      fun _ h => absurd h List.not_mem_nil⟩
  | p :: ps, qs, v, h, hlinked => by
    obtain ⟨ps', w, targets, hps, htargets, rfl, -⟩ := visitPackets_cons_ok h
    obtain ⟨hlength, hrest⟩ := right_iff_of_ok hps fun q hq => hlinked q (List.mem_cons_of_mem p hq)
    rw [delete_eq hps] at htargets ⊢
    have hfirst := rightWithout_iff (hlinked p List.mem_cons_self)
      (fun n hn => writeReg_of_mem_deadWrites hn) htargets
    refine ⟨by rw [List.length_cons, List.length_cons, hlength], ?_⟩
    rw [deadIn, List.zip_cons_cons, List.zip_cons_cons, List.zip_cons_cons, List.forall_mem_cons,
      List.forall_mem_cons, hfirst, hrest]

end Packets

namespace LinkedChunk

variable (c : LinkedChunk)

/-- The lists are right after the pass exactly if each dead write reads the port of an arithmetic or
atomic operation that its register stands for. -/
theorem use_lists_right_iff : c.Right ↔
    ∀ x ∈ c.packets.zip (deadIn c.packets), ∀ n ∈ x.2, ReadsFlagPort x.1.nodes n := by
  constructor
  · rintro ⟨c', hc, -, hright⟩
    obtain ⟨⟨ps, v⟩, hps, hc⟩ := bind_eq_ok.1 hc
    obtain rfl := pure_eq_ok.1 hc
    exact (right_iff_of_ok hps c.linked).2.1 hright
  · intro hreads
    have hunlinkable : ∀ x ∈ c.packets.zip (deadIn c.packets), ∀ n ∈ x.2,
        unlinkable x.1.nodes n := by
      intro x hx n hn
      unfold unlinkable
      split
      · next regoff regidx regname value hnode =>
        rw [(hreads x hx n hn _ _ _ _ hnode).2]
        exact Bool.or_true _
      · rfl
    obtain ⟨ps, v, hps, -⟩ := visitPackets_spec hunlinkable
    obtain ⟨hlength, hright⟩ := right_iff_of_ok hps c.linked
    exact ⟨_, bind_eq_ok.2 ⟨_, hps, rfl⟩, hlength, hright.2 hreads⟩

/-- The part of `BSR` that writes `ZF` : whether the source is zero. -/
def bsrPacket : Packet where
  nodes := [.readReg (.u 64) Reg.RBX.offset Reg.RBX.offset "RBX", .constant (.u 64) 0,
    .binaryArith .cmpeq ⟨.value, .u 64, 0⟩ ⟨.value, .u 64, 1⟩,
    .writeReg Reg.ZF.offset Reg.ZF.offset "ZF" ⟨.value, .u 1, 2⟩]
  actions := [3]
  targets := [(0, .value, 2), (1, .value, 2), (2, .value, 3)]
  operand_lt n node h := by
    rcases n with _ | _ | _ | _ | n
    · obtain rfl := Option.some.inj h
      simp [Node.operands]
    · obtain rfl := Option.some.inj h
      simp [Node.operands]
    · obtain rfl := Option.some.inj h
      simp [Node.operands]
    · obtain rfl := Option.some.inj h
      simp [Node.operands]
    · exact nomatch h
  sorted := List.pairwise_singleton ..
  isAction := by simp [Node.isAction]
  address := 0

/-- `BSR` twice. The first `ZF` is dead. -/
def bsrTwice : LinkedChunk where
  name := "bsr"
  packets := [bsrPacket, bsrPacket]
  linked p hp n regoff regidx regname value hnode o k := by
    obtain rfl : p = bsrPacket := by simpa using hp
    obtain rfl : n = 3 := by
      rcases n with _ | _ | _ | _ | n
      all_goals first | rfl | exact nomatch hnode
    obtain ⟨-, -, -, rfl⟩ := Node.writeReg.inj (Option.some.inj hnode)
    simp [bsrPacket]

/-- `ZF` is written from the value of the comparison, which keeps the deleted write in its list. -/
theorem not_bsrTwice_right : ¬bsrTwice.Right := by
  rintro ⟨c', hc, -, hright⟩
  obtain ⟨⟨ps, v⟩, hps, hc⟩ := bind_eq_ok.1 hc
  obtain rfl := pure_eq_ok.1 hc
  have hdead : deadIn bsrTwice.packets = [[3], []] := by decide
  have hfirst : (bsrPacket, [3]) ∈ bsrTwice.packets.zip (deadIn bsrTwice.packets) := by
    rw [hdead]
    exact List.mem_cons_self
  have hreads := (right_iff_of_ok hps bsrTwice.linked).2.1 hright _ hfirst 3 List.mem_cons_self
    _ _ _ _ rfl
  exact absurd hreads.2 (by decide)

end LinkedChunk

end Arancini.Ir

import Diem.Deploy
/-!
# Fetch — what block sync lets in (`core.go`, `diemnet/gorums.go`)

A fetched block has no signature of its own: whoever answers first with a block of the right id is believed.  The id is
what makes that safe.  A replica asks for the parent of a block it holds, and a block it holds was proposed over an
accepted certificate or was asked for itself; so every id asked for is certified, and every block fetched is one a
quorum voted for. The id does not frame the certificate's id, so that who answers may say where it ends: such a block is
held, over a parent that is no block's id, and is never executed.
-/
namespace Diem

/-- A validly identified block over a certified one; or one that is certified itself, over an id that no block has: of
another length, or the one below genesis. -/
def Group.Grounded (G : Group) (b : Block) : Prop :=
  G.IsBlock b ∧ (G.CertifiedID (parentID b) ∨
    (G.CertifiedID b.id ∧ ((parentID b).len ≠ hashLen ∨ parentID b = zeroHash)))

/-- What is over a block is over a certified one. -/
theorem Group.Grounded.certifiedID {G : Group} {b : Block} (h : G.Grounded b) (hparent : G.BlockID (parentID b)) :
    G.CertifiedID (parentID b) :=
  h.2.resolve_right (fun hnone => hnone.2.elim (· hparent.len) hparent.ne_zeroHash)

/-- **A ledger of certified chains**: what is executed or committed is over a certified block, what is held is too, or
was fetched over an id that no block has. -/
structure Group.Grounds (G : Group) (l : MemLedger) : Prop where
  pending   : ∀ id s, l.pending.lookup id = some s →
                s.block.id = id ∧ G.IsBlock s.block ∧ G.CertifiedID (parentID s.block)
  committed : ∀ id b, l.committed.lookup id = some b → b = genesisBlock G.crypto ∨
                (b.id = id ∧ G.IsBlock b ∧ G.CertifiedID id ∧ G.CertifiedID (parentID b))
  held      : ∀ id b, l.held.lookup id = some b → b.id = id ∧ G.Grounded b

theorem LedgerInv.grounds {G : Group} {l : MemLedger} (h : LedgerInv G G.Grounded l) : G.Grounds l := by
  refine ⟨fun id s hs => ?_, fun id b hb => ?_, h.held⟩
  · obtain ⟨hid, hground, hparent⟩ := h.pending id s hs
    exact ⟨hid, hground.1, hground.certifiedID hparent⟩
  · obtain ⟨hid, hgenesis | ⟨hground, hcert, hparent⟩⟩ := h.committed id b hb
    · exact .inl hgenesis
    · exact .inr ⟨hid, hground.1, hcert, hground.certifiedID hparent⟩

/-- **The condition on a step**: a block that comes in by itself is certified. -/
def BlocksAsked (N : Net) (_ : UInt32) (_ : Core) (e : Event) : Prop := ∀ b, e = .block b → N.CertifiedID b.id

/-- The ids asked for are certified, if they can be ids at all. -/
def AskedFor (G : Group) (eff : List Effect) : Prop :=
  ∀ id, .requestBlock id ∈ eff → id.len = hashLen → id = zeroHash ∨ G.CertifiedID id

namespace MemLedger

theorem missingLoop_parent {held : Table Bytes Block} {m : Bytes} : ∀ {n : Nat} {b : Block},
    missingLoop held n b = .ok m → m = parentID b ∨ ∃ k b', held.lookup k = some b' ∧ m = parentID b'
  | n, b, h => by
    unfold missingLoop at h
    split at h
    · cases h
      exact .inl rfl
    · rename_i b' hb'
      split at h
      · cases h
      · rcases missingLoop_parent h with rfl | hk
        · exact .inr ⟨_, b', hb', rfl⟩
        · exact .inr hk

/-- **`Missing` names the parent of a held block**, or nothing. -/
theorem missing_parent {l : MemLedger} {fuel : Nat} {id m : Bytes} (h : l.missing fuel id = .ok m) :
    m = default ∨ ∃ k b, l.held.lookup k = some b ∧ m = parentID b := by
  unfold missing at h
  split at h
  · cases h
    exact .inl rfl
  · rename_i b hb
    rcases missingLoop_parent h with rfl | hk
    · exact .inr ⟨id, b, hb, rfl⟩
    · exact .inr hk

end MemLedger

namespace Net

variable {N : Net} {i : UInt32} {env : Env} {c₀ c c' : Core} {e : Event} {eff : List Effect} {id : Bytes}

theorem request_onCommit {bs : List Block} : .requestBlock id ∉ bs.map Effect.onCommit := by
  intro h
  obtain ⟨b, -, hb⟩ := List.mem_map.1 h
  cases hb

theorem request_propose {tc : Option TimeoutCert} :
    .requestBlock id ∉ c.processNewRoundEvent N.crypto (N.config i) env tc := by
  intro h
  obtain ⟨sig, -, hx⟩ := Core.mem_processNewRoundEvent h
  cases hx

/-- **An insertion asks for the parent of a block it leaves held**; nothing else asks for any. -/
theorem Micro.requests (h : N.Micro i env c₀ e c eff c') (hid : .requestBlock id ∈ eff) :
    ∃ k b, c'.ledger.held.lookup k = some b ∧ id = parentID b := by
  cases h with
  | cert _ qc _ moved _ hsrc h =>
    obtain ⟨l, t, bs, le, -, -, -, -, rfl⟩ := Core.processCertificateQC_ok h
    exact absurd hid request_onCommit
  | insert _ b _ _ hsrc h =>
    rw [Core.insert] at h
    split at h
    · cases h
    · rename_i m hm
      cases h
      split at hid
      · cases hid
      · rename_i hne
        cases List.mem_singleton.1 hid
        exact (MemLedger.missing_parent hm).resolve_left hne
  | vote _ p b dest hp hb hround hqc =>
    obtain ⟨v, -, hx⟩ := List.mem_map.1 hid
    cases hx
  | timeout =>
    obtain ⟨m, -, hx⟩ := List.mem_map.1 hid
    cases hx
  | complete _ m tc _ hm htc hlen hround hc' => exact absurd hid request_propose
  | voteQC m qc l t bs hm hqc hwin h => exact absurd hid request_onCommit
  | aggregate _ m qc _ moved eff hm hwin hqc h =>
    obtain ⟨l, t, bs, le, -, -, -, -, rfl⟩ := Core.processCertificateQC_ok h
    have hid' := (List.mem_cons.1 hid).resolve_left (fun hx => by cases hx)
    split at hid'
    · exact ((List.mem_append.1 hid').elim request_onCommit request_propose).elim
    · exact absurd hid' request_onCommit
  | reply _ b => cases List.mem_singleton.1 hid
  | _ => cases hid

theorem Cut.requests (h : N.Cut i env e c eff) : .requestBlock id ∉ eff := by
  intro hid
  cases h with
  | cert qc l t bs loop hsrc h hloop => exact request_onCommit hid
  | assembled m qc loop hm hqc h => cases List.mem_singleton.1 hid
  | aggregate m qc l t bs loop hm hqc h hloop =>
    exact request_onCommit ((List.mem_cons.1 hid).resolve_left (fun hx => by cases hx))
  | _ => cases hid

end Net

section

variable {N : Net} {log : List (UInt32 × Signed)} (hb : Ballots N.toGroup log)
include hb

/-- What comes in hangs below a certificate. -/
theorem grounded {i : UInt32} {c₀ : Core} {e : Event} (he : N.Admits e) (hP : BlocksAsked N i c₀ e) {b : Block}
    (hsrc : e = .block b ∨ ∃ p, e = .proposal p ∧ p.block = some b) : N.Grounded b := by
  refine ⟨he.isBlock hsrc, ?_⟩
  rcases hsrc with rfl | ⟨p, rfl, hp⟩
  · have hcert := hP b rfl
    by_cases hlen : (parentID b).len = hashLen
    · rcases hb.certifiedID_parent hcert (he.isBlock (.inl rfl)) hlen with hzero | ⟨hparent, -⟩
      · exact .inr ⟨hcert, .inr hzero⟩
      · exact .inl hparent
    · exact .inr ⟨hcert, .inl hlen⟩
  · exact .inl ⟨b.qc, (he.proposed hp).2.1, (parentID_eq b).symm⟩

/-- **Every id asked for is certified**, in every run in which what comes in by itself is. -/
theorem asked_run {σ : Sys} (h : N.Run (BlocksAsked N) σ) (i : UInt32) :
    AskedFor N.toGroup (σ.effects i) ∧
      ∀ c, σ.status i = .running c → CoreInv N.toGroup N.Grounded (σ.effects i) c := by
  have hisBlock : ∀ b, N.Grounded b → N.IsBlock b := fun _ hb => hb.1
  have hasked : ∀ {tr eff : List Effect}, AskedFor N.toGroup tr → (∀ id, .requestBlock id ∉ eff) →
      AskedFor N.toGroup (tr ++ eff) :=
    fun htr hnone id hid => htr id ((List.mem_append.1 hid).resolve_right (hnone id))
  have hinv := Net.Run.invariant (N := N) (P := BlocksAsked N)
    (J := fun _ tr c => CoreInv N.toGroup N.Grounded tr c ∧ AskedFor N.toGroup tr)
    (K := fun _ tr => AskedFor N.toGroup tr) ?_ ?_ ?_ h i
  · refine ⟨?_, fun c hc => (hinv.2.1 c hc).1⟩
    cases hs : σ.status i with
    | fresh =>
      rw [hinv.1 hs]
      exact fun id hid => absurd hid List.not_mem_nil
    | running c => exact (hinv.2.1 c hs).2
    | stuck => exact hinv.2.2 hs
  · exact fun i env c hnew _ => ⟨coreInv_start hnew, fun id hid => absurd hid Net.request_propose⟩
  · intro i env c₀ e tr c eff c' _ he hP hJ hm hok
    have hcore := coreInv_micro hisBlock hb he (fun b hsrc => grounded hb he hP hsrc) hJ.1 hm hok
    refine ⟨hcore, fun id hid hlen => ?_⟩
    rcases List.mem_append.1 hid with hid | hid
    · exact hJ.2 id hid hlen
    · obtain ⟨k, b, hheld, rfl⟩ := hm.requests hid
      rcases (hcore.ledger.held k b hheld).2.2 with hparent | ⟨-, hshort | hzero⟩
      · exact .inr hparent
      · exact absurd hlen hshort
      · exact .inl hzero
  · exact fun i env c₀ e tr c eff _ _ _ hJ hc _ => hasked hJ.2 (fun id => hc.requests)

end

/-- An act that leaves the core outside the loop leaves its ledger as it was. -/
theorem Replica.ledger_of_act {cr : Crypto} {cfg : Config} {r : Replica} {a : Act} {o : Outcome} {c : Core}
    (ha : r.act cr cfg a = some o) (hc : o.replica.life.core = some c) :
    o.replica.life = .looping c ∨ ∃ c₀, r.life.core = some c₀ ∧ c.ledger = c₀.ledger := by
  have hmoves := act_moves ha
  generalize a.env = env at hmoves
  cases hmoves with
  | rest life rejected fetching hlife hfetching =>
    generalize hl : r.life = life₀ at hlife
    cases hlife with
    | stay => exact .inr ⟨c, hc, rfl⟩
    | abandon c' => exact .inr ⟨c, hc, rfl⟩
    | cancel c' =>
      cases hc
      exact .inr ⟨c', rfl, rfl⟩
    | halt c' => exact .inr ⟨c, hc, rfl⟩
  | push e fetching he hblock hfetching => exact .inr ⟨c, hc, rfl⟩
  | send call net hd => exact .inr ⟨c, hc, rfl⟩
  | start env c' hlife =>
    cases hc
    exact .inl rfl
  | tick env c' e queue hlife hq =>
    rw [step] at hc ⊢
    split at hc
    · cases hc
      exact .inl rfl
    · cases hc
  | discard c' e queue hlife hq => exact .inr ⟨c, hc, rfl⟩

namespace Deployment

variable {PublicKey PrivateKey : Type} {D : Deployment PublicKey PrivateKey} {σ : Cluster} {τ : Sys} {i : UInt32}
  {r : Replica}

/-- What was asked for in a run of the cores came for certified ids alone. -/
theorem Run.certified {log : List (UInt32 × Signed)} (hb : Ballots D.net.toGroup log) (h : D.Run σ) (hsim : Sim σ τ)
    (hτ : D.net.Run (BlocksAsked D.net) τ) (hr : σ.replica i = some r) :
    ∃ r₀ took gave done, newReplica D.ecdsa D.sha (D.replica i) = some r₀ ∧
      Replica.Ran D.crypto (D.net.config i) r₀ took gave (σ.effects i) done r ∧
      (∀ e ∈ r.queue.pending, e ∈ took) ∧ ∀ b, .block b ∈ took → D.net.CertifiedID b.id := by
  obtain ⟨r₀, took, gave, done, hnew, hran, hknown⟩ := (h.ran i).2 r hr
  have hkept₀ := newReplica_kept hnew
  rw [D.crypto_eq] at hkept₀
  have hkept := hran.kept hkept₀
  refine ⟨r₀, took, gave, done, hnew, hran, fun e he => ?_, fun b hbt => ?_⟩
  · rw [← hkept.queue.fifo]
    exact List.mem_append_right _ he
  · have hadmits : D.net.Admits (.block b) := by
      refine admits_of_verified ?_ (hknown _ hbt)
      rw [← D.net.verifier_eq i]
      exact hkept.verified _ hbt
    have hblock := hadmits.isBlock (.inl rfl)
    have hasked : .requestBlock b.id ∈ τ.effects i := by
      have := hkept.asked b hbt
      rw [Cluster.effects, ← hsim.trace] at this
      exact this
    exact ((asked_run hb hτ i).1 b.id hasked hblock.id_len).resolve_left hblock.id_ne_zeroHash

/-- **The cores of a deployment are only given certified blocks.** -/
theorem Run.asked {log : List (UInt32 × Signed)} (hb : Ballots D.net.toGroup log) (h : D.Run σ) :
    ∃ τ, D.net.Run (BlocksAsked D.net) τ ∧ Sim σ τ := by
  induction h with
  | refl => exact ⟨Sys.init, .refl, sim_init⟩
  | tail hrun hstep ih =>
    obtain ⟨τ, hτ, hsim⟩ := ih
    obtain ⟨τ', hτ', hsim'⟩ := hsim.step (P := BlocksAsked D.net) hrun hstep (fun i r c e hr he b heq => by
      subst heq
      obtain ⟨-, took, -, -, -, -, hpending, hcert⟩ := Run.certified hb hrun hsim hτ hr
      exact hcert b (hpending _ he))
    exact ⟨τ', hτ.trans hτ', hsim'⟩

/-- The ledger of a new core has genesis alone. -/
theorem grounds_new {c : Core} (hnew : newCore D.net.crypto (D.net.config i) = some c) : D.net.Grounds c.ledger := by
  let env : Env := ⟨fun _ => none, default, 0⟩
  have hcore : CoreInv D.net.toGroup D.net.Grounded _ (c.start D.net.crypto (D.net.config i) env).1 :=
    coreInv_start hnew
  exact hcore.ledger.grounds

/-- **Whatever a replica is at, its ledger is grounded**: a step leaves it so, and nothing else writes to it. -/
theorem Run.grounds {log : List (UInt32 × Signed)} (hb : Ballots D.net.toGroup log) (h : D.Run σ) :
    ∀ i r c, σ.replica i = some r → r.life.core = some c → D.net.Grounds c.ledger := by
  induction h with
  | refl => exact fun i r c hr => by cases hr
  | @tail σ σ' hrun hstep ih =>
    obtain ⟨τ, hτ, hsim⟩ := Run.asked hb (hrun.tail hstep)
    intro j r' c hr hcore
    cases hstep with
    | new i r hi hσ hnew =>
      by_cases hij : j = i
      · subst hij
        rw [Cluster.replica_set_self] at hr
        cases hr
        obtain ⟨-, -, c₀, hc₀, rfl⟩ := newReplica_eq hnew
        cases hcore
        rw [D.crypto_eq] at hc₀
        exact grounds_new hc₀
      · rw [Cluster.replica_set_ne σ hij] at hr
        exact ih j r' c hr hcore
    | act i r a o hi hσ henv ha hknown hsigned =>
      by_cases hij : j = i
      · subst hij
        have hmirrors := hsim.mirrors j r' hr
        rw [Cluster.replica_set_self] at hr
        cases hr
        rcases Replica.ledger_of_act ha hcore with hloop | ⟨c₀, hcore₀, hledger⟩
        · -- a core in the loop is one of a run of the cores
          rw [hloop] at hmirrors
          exact ((asked_run hb hτ j).2 c hmirrors).ledger.grounds
        · rw [hledger]
          exact ih j r c₀ hσ hcore₀
      · rw [Cluster.replica_set_ne σ hij] at hr
        exact ih j r' c hr hcore

end Deployment

end Diem

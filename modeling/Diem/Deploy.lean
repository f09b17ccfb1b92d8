import Diem.Agreement
import Diem.Replica
/-!
# Deploy — replicas run together, and what their logs are checked for (`cmd/diem/main.go`)

A deployment is a set of replicas with one table of public keys.  Its honest replicas run as `Replica.lean` has them,
act by act in any order: goroutines, queues, transport and all.  Every such run is one of `System.lean`'s (`refines`),
with the same trace; that a signature verifies is no longer assumed of a step but follows from how it was made.
-/
namespace Diem

/-! ## What a step signs -/

namespace Net

variable {N : Net} {i : UInt32} {env : Env} {c₀ : Core} {e : Event}

/-- Every signature in what was done outside is one `Sign` returned, for the digest of what is signed. -/
def Signs (N : Net) (env : Env) (eff : List Effect) : Prop :=
  ∀ x ∈ eff, ∀ y s, x.signature = some (y, s) → env.sign (N.crypto.sha256 y.bytes) = some s

theorem Signs.append {eff eff' : List Effect} (h : N.Signs env eff) (h' : N.Signs env eff') :
    N.Signs env (eff ++ eff') := by
  intro x hx
  rcases List.mem_append.1 hx with hx | hx
  · exact h x hx
  · exact h' x hx

theorem signs_nil : N.Signs env [] := fun _ hx => absurd hx List.not_mem_nil

theorem signs_onCommit (bs : List Block) : N.Signs env (bs.map Effect.onCommit) := by
  intro x hx y s hy
  obtain ⟨b, -, rfl⟩ := List.mem_map.1 hx
  cases hy

theorem signs_propose (c : Core) (tc : Option TimeoutCert) :
    N.Signs env (c.processNewRoundEvent N.crypto (N.config i) env tc) := by
  intro x hx y s hy
  obtain ⟨sig, hsig, rfl⟩ := Core.mem_processNewRoundEvent hx
  cases hy
  exact (Safety.sign_eq_some hsig).2

theorem signs_assembled {t : BlockTree} {m : VoteMsg} {qc : QuorumCert}
    (h : (t.accumulate N.crypto env i N.verifier.quorum m).2 = some qc) : N.Signs env [.assembled qc] := by
  generalize hacc : t.accumulate N.crypto env i N.verifier.quorum m = r at h
  obtain ⟨t', q⟩ := r
  rcases accumulate_cases hacc with ⟨-, rfl⟩ | ⟨-, b, -, -, -, -, -, hq⟩
  · cases h
  · obtain ⟨-, sig, ⟨-, hsig⟩, rfl⟩ := hq qc h
    intro x hx y s hy
    rw [List.mem_singleton.1 hx] at hy
    cases hy
    exact hsig

theorem Micro.signs {c c' : Core} {eff : List Effect} (h : N.Micro i env c₀ e c eff c') : N.Signs env eff := by
  cases h with
  | cert _ qc _ moved _ hsrc h =>
    obtain ⟨l, t, bs, le, -, -, -, -, rfl⟩ := Core.processCertificateQC_ok h
    exact signs_onCommit bs
  | tc _ t hsrc => exact signs_nil
  | insert _ b _ _ hsrc h =>
    obtain ⟨-, rfl | ⟨id, rfl⟩⟩ := Core.insert_ok h
    · exact signs_nil
    · intro x hx y s hy
      rw [List.mem_singleton.1 hx] at hy
      cases hy
  | vote _ p b dest hp hb hround hqc =>
    intro x hx y s hy
    obtain ⟨v, hv, rfl⟩ := List.mem_map.1 hx
    cases hy
    exact ((Safety.makeVote_spec _ _ _ _ _ _ _ _).2 v (Option.mem_toList.1 hv)).signed
  | stop => exact signs_nil
  | timeout =>
    intro x hx y s hy
    obtain ⟨m, hm, rfl⟩ := List.mem_map.1 hx
    obtain ⟨info, hinfo, rfl⟩ := Option.map_eq_some_iff.1 (Option.mem_toList.1 hm)
    cases hy
    exact ((Safety.makeTimeout_spec _ _ _ _ _ _ _).2 info hinfo).signed
  | note _ m hm hnew => exact signs_nil
  | complete _ m tc _ hm htc hlen hround hc' => exact signs_propose _ _
  | voteQC m qc l t bs hm hqc hwin h => exact signs_onCommit bs
  | gather _ m hm h => exact signs_nil
  | aggregate _ m qc _ moved eff hm hwin hqc h =>
    obtain ⟨l, t, bs, le, -, -, -, -, rfl⟩ := Core.processCertificateQC_ok h
    have hrest : N.Signs env (if moved then
        bs.map Effect.onCommit ++ c'.processNewRoundEvent N.crypto (N.config i) env none
        else bs.map Effect.onCommit) := by
      split
      · exact (signs_onCommit bs).append (signs_propose _ _)
      · exact signs_onCommit bs
    exact (signs_assembled hqc).append hrest
  | reply _ b =>
    intro x hx y s hy
    rw [List.mem_singleton.1 hx] at hy
    cases hy

theorem Micros.signs {c c' : Core} {eff : List Effect} (h : N.Micros i env c₀ e c eff c') : N.Signs env eff := by
  induction h with
  | refl => exact signs_nil
  | tail _ hm ih => exact ih.append hm.signs

theorem Cut.signs {c : Core} {eff : List Effect} (h : N.Cut i env e c eff) : N.Signs env eff := by
  cases h with
  | insert b loop hsrc h => exact signs_nil
  | commit qc loop hsrc h => exact signs_nil
  | cert qc l t bs loop hsrc h hloop => exact signs_onCommit bs
  | assembled m qc loop hm hqc h => exact signs_assembled hqc
  | aggregate m qc l t bs loop hm hqc h hloop => exact (signs_assembled hqc).append (signs_onCommit bs)

/-- **A step signs what it sends**, whether or not it returns. -/
theorem step_signs (he : N.Admits e) : N.Signs env (Core.did (c₀.step N.crypto (N.config i) env e)) := by
  cases hs : c₀.step N.crypto (N.config i) env e with
  | ok r => exact (step_micros he hs).signs
  | error s =>
    obtain ⟨c', eff, eff', hm, hc, hd⟩ := step_halts he hs
    rw [Core.did, hd]
    exact hm.signs.append hc.signs

end Net

namespace Signer

variable {PublicKey PrivateKey : Type} {E : Ecdsa PublicKey PrivateKey} {S : Signer PublicKey PrivateKey}

/-- What `Sign` returns comes of what `SignASN1` returned. -/
theorem sign_der {rand : Nat} {digest sig : Bytes} (h : S.sign E rand digest = some sig) :
    ∃ der, E.signASN1 S.key rand digest = some der := by
  unfold sign at h
  split at h
  · cases h
  · rename_i der hder
    exact ⟨der, hder⟩

/-- What `Verify` accepts, `VerifyASN1` accepts under the signer's key. -/
theorem verify_signed {i : UInt32} {digest sig : Bytes} (h : S.verify E i digest sig = true) :
    ∃ pub, S.keys.lookup i = some pub ∧ E.verifyASN1 pub digest sig = true := by
  unfold verify at h
  split at h
  · cases h
  rename_i pub hpub
  split at h
  · cases h
  split at h
  · cases h
  exact ⟨pub, hpub, h⟩

end Signer

/-! ## Deployments -/

/-- **A deployment**: one table of public keys, and a replica for each of them; the Byzantine ones need not be the
code's. `SignASN1` of an honest private key makes what `VerifyASN1` accepts under its public key. -/
structure Deployment (PublicKey PrivateKey : Type) where
  ecdsa         : Ecdsa PublicKey PrivateKey
  sha           : Crypto
  keys          : Table UInt32 PublicKey
  replica       : UInt32 → ReplicaConfig PublicKey PrivateKey
  id_eq         : ∀ i, (replica i).id = i
  keys_eq       : ∀ i, (replica i).keys = keys
  byzantine     : Finset UInt32
  few           : byzantine.card ≤ faulty keys.keys.length
  paired        : ∀ i, i ∉ byzantine → ∀ pub, keys.lookup i = some pub → ∀ rand digest der,
                    ecdsa.signASN1 (replica i).key rand digest = some der → ecdsa.verifyASN1 pub digest der = true
  hashed        : Set (List UInt8)
  collisionFree : CollisionFree sha hashed
  genesis       : (genesisBlock sha).bytes ∈ hashed

/-- The replicas there are, and everything they did. -/
structure Cluster where
  replica : UInt32 → Option Replica
  trace   : List (UInt32 × Effect)

namespace Cluster

def init : Cluster := ⟨fun _ => none, []⟩

def set (σ : Cluster) (i : UInt32) (r : Replica) (eff : List Effect) : Cluster :=
  ⟨Function.update σ.replica i (some r), σ.trace ++ eff.map (fun x => (i, x))⟩

/-- What replica `i` did, oldest first. -/
def effects (σ : Cluster) (i : UInt32) : List Effect := Sys.effects ⟨fun _ => .fresh, σ.trace⟩ i

theorem replica_set_self (σ : Cluster) (i : UInt32) (r : Replica) (eff : List Effect) :
    (σ.set i r eff).replica i = some r := Function.update_self _ _ _

theorem replica_set_ne (σ : Cluster) {i j : UInt32} (hij : j ≠ i) (r : Replica) (eff : List Effect) :
    (σ.set i r eff).replica j = σ.replica j := Function.update_of_ne hij _ _

theorem effects_set_self (σ : Cluster) (i : UInt32) (r : Replica) (eff : List Effect) :
    (σ.set i r eff).effects i = σ.effects i ++ eff := Sys.effects_set_self ⟨fun _ => .fresh, σ.trace⟩ i .fresh eff

theorem effects_set_ne (σ : Cluster) {i j : UInt32} (hij : j ≠ i) (r : Replica) (eff : List Effect) :
    (σ.set i r eff).effects j = σ.effects j := Sys.effects_set_ne ⟨fun _ => .fresh, σ.trace⟩ hij .fresh eff

end Cluster

/-- What the strings hashed for an event's check are among. -/
def Group.Known (G : Group) : Event → Prop
  | .proposal p     => (∀ b ∈ p.block, b.bytes ∈ G.hashed ∧ G.KnownQC b.qc) ∧ G.KnownQC p.highCommitQc ∧
                         G.KnownTC p.lastRoundTc
  | .vote m         => voteInfoBytes m.voteInfo ∈ G.hashed ∧ ledgerCommitBytes m.ledgerCommitInfo ∈ G.hashed ∧
                         G.KnownQC m.highCommitQc
  | .timeout m      => timeoutBytes m.tmoInfo.round (qcRound m.tmoInfo.highQc) ∈ G.hashed ∧ G.KnownQC m.tmoInfo.highQc ∧
                         G.KnownQC m.highCommitQc ∧ G.KnownTC m.lastRoundTc
  | .localTimeout _ => True
  | .block b        => b.bytes ∈ G.hashed
  | .blockRequest _ => True

/-- What a replica signs is hashed, and a vote's content before it. -/
def Group.KnownSigned (G : Group) (x : Effect) : Prop := ∀ p ∈ x.signature, ∀ s ∈ p.1.strings, s ∈ G.hashed

namespace Deployment

variable {PublicKey PrivateKey : Type} (D : Deployment PublicKey PrivateKey)

/-- The cryptography of every replica: `Verify` reads the public keys alone. -/
def crypto : Crypto := (D.replica 0).signer.crypto D.ecdsa D.sha

theorem crypto_eq (i : UInt32) : (D.replica i).signer.crypto D.ecdsa D.sha = D.crypto := by
  have hverify : (D.replica i).signer.verify D.ecdsa = (D.replica 0).signer.verify D.ecdsa := by
    funext signer digest sig
    simp only [Signer.verify, ReplicaConfig.signer, D.keys_eq]
  rw [crypto, Signer.crypto, Signer.crypto, hverify]

/-- The group of the deployment's validators. -/
def net : Net where
  crypto        := D.crypto
  validators    := D.keys.keys.insertionSort (· ≤ ·)
  distinct      := (List.perm_insertionSort _ _).nodup_iff.2 D.keys.nodupKeys
  registered    := fun i d s h => by
    have hi := Signer.registered (S := (D.replica 0).signer) h
    rw [ReplicaConfig.signer, D.keys_eq] at hi
    exact (List.perm_insertionSort _ _).mem_iff.2 hi
  byzantine     := D.byzantine
  few           := by
    rw [List.length_insertionSort]
    exact D.few
  hashed        := D.hashed
  collisionFree := ⟨D.collisionFree.inj, D.collisionFree.bottom⟩
  genesis       := D.genesis
  config i      := (D.replica i).core D.crypto
  id_eq i       := D.id_eq i
  members i     := by rw [ReplicaConfig.core, ReplicaConfig.validators, D.keys_eq]

/-- `Sign` of replica `i`, whatever its random source yields. -/
def Keyed (i : UInt32) (env : Env) : Prop :=
  ∀ d s, env.sign d = some s → ∃ rand, (D.replica i).signer.sign D.ecdsa rand d = some s

/-- **One act of one honest replica**, or its `New`. -/
inductive Step : Cluster → Cluster → Prop
  | new (σ : Cluster) (i : UInt32) (r : Replica) (hi : D.net.Honest i) (hσ : σ.replica i = none)
      (hnew : newReplica D.ecdsa D.sha (D.replica i) = some r) : Step σ (σ.set i r [])
  | act (σ : Cluster) (i : UInt32) (r : Replica) (a : Act) (o : Outcome) (hi : D.net.Honest i)
      (hσ : σ.replica i = some r) (henv : ∀ env, a.env = some env → D.Keyed i env)
      (ha : r.act D.crypto (D.net.config i) a = some o) (hknown : ∀ e ∈ o.took, D.net.Known e)
      (hsigned : ∀ x ∈ o.eff, D.net.KnownSigned x) : Step σ (σ.set i o.replica o.eff)

def Run (σ : Cluster) : Prop := Relation.ReflTransGen D.Step Cluster.init σ

/-- **A state of a run whose signatures are unforgeable**, by what is signed in some continuation of it. -/
def Reached (σ : Cluster) : Prop :=
  D.Run σ ∧ ∃ σ', Relation.ReflTransGen D.Step σ σ' ∧ D.net.Unforgeable (signedLog σ'.trace)

/-! ## A run of replicas is a run of cores -/

theorem admits_of_verified {N : Net} {e : Event} (hv : e.Verified N.verifier) (hk : N.Known e) : N.Admits e := by
  cases e with
  | proposal p => exact ⟨hv, hk⟩
  | vote m => exact ⟨hv, hk⟩
  | timeout m => exact ⟨hv, hk⟩
  | localTimeout epoch => trivial
  | block b => exact ⟨hv, hk⟩
  | blockRequest id => trivial

variable {D} {σ σ' : Cluster} {τ : Sys} {i : UInt32} {r : Replica}

/-- **What an honest replica signs, every replica's `Verify` accepts.** -/
theorem legit_of_signs (hi : D.net.Honest i) {env : Env} (henv : D.Keyed i env) {eff : List Effect}
    (hs : D.net.Signs env eff) (hk : ∀ x ∈ eff, D.net.KnownSigned x) : ∀ x ∈ eff, D.net.Legit i x := by
  intro x hx
  refine (legit_iff i x).2 (fun ⟨y, s⟩ hy => ⟨?_, hk x hx _ hy⟩)
  obtain ⟨rand, hsign⟩ := henv _ s (hs x hx y s hy)
  obtain ⟨der, hder⟩ := Signer.sign_der hsign
  have hmem : i ∈ D.keys.keys := (List.perm_insertionSort _ _).mem_iff.1 hi.1
  obtain ⟨pub, hpub⟩ := Option.isSome_iff_exists.1 (AList.lookup_isSome.2 hmem)
  have hlookup : (D.replica i).signer.keys.lookup i = some pub := by rw [ReplicaConfig.signer, D.keys_eq, hpub]
  have hverify := Signer.verify_sign hder (D.paired i hi.2 pub hpub rand _ der hder) hlookup hsign
  show D.crypto.verify i _ s = true
  rw [← D.crypto_eq i]
  exact hverify

/-- **Every replica of a cluster has a history of its own**, of known events, and what it did is in the trace. -/
theorem Run.ran (h : D.Run σ) (i : UInt32) :
    (σ.replica i = none → σ.effects i = []) ∧ ∀ r, σ.replica i = some r → ∃ r₀ took gave done,
      newReplica D.ecdsa D.sha (D.replica i) = some r₀ ∧
      Replica.Ran D.crypto (D.net.config i) r₀ took gave (σ.effects i) done r ∧ ∀ e ∈ took, D.net.Known e := by
  induction h with
  | refl => exact ⟨fun _ => rfl, fun r hr => by cases hr⟩
  | @tail σ σ' _ hstep ih =>
    cases hstep with
    | new j r hj hσ hnew =>
      by_cases hij : i = j
      · subst hij
        rw [Cluster.replica_set_self, Cluster.effects_set_self, ih.1 hσ]
        refine ⟨fun hr => (by cases hr), fun r' hr' => ?_⟩
        cases hr'
        exact ⟨r, [], [], [], hnew, .new, fun e he => absurd he List.not_mem_nil⟩
      · rw [Cluster.replica_set_ne σ hij, Cluster.effects_set_ne σ hij]
        exact ih
    | act j r a o hj hσ henv ha hknown hsigned =>
      by_cases hij : i = j
      · subst hij
        rw [Cluster.replica_set_self, Cluster.effects_set_self]
        refine ⟨fun hr => (by cases hr), fun r' hr' => ?_⟩
        cases hr'
        obtain ⟨r₀, took, gave, done, hnew, hran, htook⟩ := ih.2 r hσ
        refine ⟨r₀, _, _, _, hnew, hran.act a ha, fun e he => ?_⟩
        rcases List.mem_append.1 he with he | he
        · exact htook e he
        · exact hknown e (Option.mem_toList.1 he)
      · rw [Cluster.replica_set_ne σ hij, Cluster.effects_set_ne σ hij]
        exact ih

/-- What a history keeps, of a replica of a cluster; and what waits in its queue is let in. -/
theorem Run.kept (h : D.Run σ) (hr : σ.replica i = some r) :
    ∃ took gave done, Replica.Kept D.crypto (D.net.config i) (D.replica i).queueCap.toNat
      ((D.replica i).server.getD (D.replica i).peers) took gave (σ.effects i) done r ∧
      (∀ e ∈ took, D.net.Admits e) ∧ ∀ e ∈ r.queue.pending, D.net.Admits e := by
  obtain ⟨r₀, took, gave, done, hnew, hran, hknown⟩ := (h.ran i).2 r hr
  have hkept₀ := newReplica_kept hnew
  rw [D.crypto_eq] at hkept₀
  have hkept := hran.kept hkept₀
  have hadmits : ∀ e ∈ took, D.net.Admits e := by
    intro e he
    refine admits_of_verified ?_ (hknown e he)
    rw [← D.net.verifier_eq i]
    exact hkept.verified e he
  refine ⟨took, gave, done, hkept, hadmits, fun e he => hadmits e ?_⟩
  rw [← hkept.queue.fifo]
  exact List.mem_append_right _ he

/-- The core as `System.lean` has it: one that was never started is fresh, and one that was stopped goes unasked. -/
def Mirrors : Life → Status → Prop
  | .waiting _,  s => s = .fresh
  | .looping c,  s => s = .running c
  | .stuck,      s => s = .stuck
  | .stopping c, s => s = .fresh ∨ ∃ c', s = .running c' ∧ c = c'.stop
  | .stopped c,  s => s = .fresh ∨ ∃ c', s = .running c' ∧ c = c'.stop

/-- **The simulation**: the same trace, and the same cores. -/
structure Sim (σ : Cluster) (τ : Sys) : Prop where
  trace   : τ.trace = σ.trace
  fresh   : ∀ i, σ.replica i = none → τ.status i = .fresh
  mirrors : ∀ i r, σ.replica i = some r → Mirrors r.life (τ.status i)

theorem Mirrors.winds {life life' : Life} {s : Status} (h : Mirrors life s) (hw : Replica.Winds life life') :
    Mirrors life' s := by
  cases hw with
  | stay => exact h
  | abandon c => exact .inl h
  | cancel c => exact .inr ⟨c, h, rfl⟩
  | halt c => exact h

namespace Sim

/-- Both sides move one replica. -/
theorem set (h : Sim σ τ) {s : Status} (eff : List Effect) (hlife : Mirrors r.life s) :
    Sim (σ.set i r eff) (τ.set i s eff) := by
  refine ⟨?_, fun j hj => ?_, fun j r' hj => ?_⟩
  · rw [Sys.set, Cluster.set, h.trace]
  · by_cases hij : j = i
    · subst hij
      rw [Cluster.replica_set_self] at hj
      cases hj
    · rw [Cluster.replica_set_ne σ hij] at hj
      rw [Sys.status_set_ne τ hij]
      exact h.fresh j hj
  · by_cases hij : j = i
    · subst hij
      rw [Cluster.replica_set_self] at hj
      cases hj
      rw [Sys.status_set_self]
      exact hlife
    · rw [Cluster.replica_set_ne σ hij] at hj
      rw [Sys.status_set_ne τ hij]
      exact h.mirrors j r' hj

/-- Nothing the cores are asked about happens. -/
theorem keep (h : Sim σ τ) (hlife : Mirrors r.life (τ.status i)) : Sim (σ.set i r []) τ := by
  have hset := h.set (i := i) [] hlife
  rwa [Sys.set, Function.update_eq_self, List.map_nil, List.append_nil] at hset

/-- **One act is at most one step of the cores**, on an event that waited in the queue. -/
theorem step {P : UInt32 → Core → Event → Prop} (hrun : D.Run σ) (h : Sim σ τ) (hstep : D.Step σ σ')
    (hP : ∀ i r c e, σ.replica i = some r → e ∈ r.queue.pending → P i c e) :
    ∃ τ', Relation.ReflTransGen (D.net.Step P) τ τ' ∧ Sim σ' τ' := by
  cases hstep with
  | new i r hi hσ hnew =>
    obtain ⟨-, -, c, -, rfl⟩ := newReplica_eq hnew
    exact ⟨τ, .refl, h.keep (h.fresh i hσ)⟩
  | act i r a o hi hσ henv ha hknown hsigned =>
    have hmirrors := h.mirrors i r hσ
    obtain ⟨took, gave, done, hkept, -, hqueue⟩ := hrun.kept hσ
    have hmoves := Replica.act_moves ha
    generalize a.env = ae at hmoves henv
    cases hmoves with
    | rest life rejected fetching hlife hfetching => exact ⟨τ, .refl, h.keep (hmirrors.winds hlife)⟩
    | push e fetching he hblock hfetching => exact ⟨τ, .refl, h.keep hmirrors⟩
    | send call net hd => exact ⟨τ, .refl, h.keep hmirrors⟩
    | start env c hlife =>
      have hnew := hkept.stands
      rw [hlife] at hmirrors hnew
      have hlegit := legit_of_signs hi (henv env rfl) (Net.signs_propose _ _) hsigned
      exact ⟨_, .single (.start τ i env c hi hmirrors hnew.1 hlegit), h.set _ rfl⟩
    | tick env c e queue hlife hq =>
      rw [hlife] at hmirrors
      have hmem : e ∈ r.queue.pending := by
        rw [(Chan.recv_eq_some hq).1]
        exact List.mem_cons_self
      have he := hqueue e hmem
      have hsigns : D.net.Signs env (Core.did (c.step D.net.crypto (D.net.config i) env e)) := Net.step_signs he
      cases hs : c.step D.net.crypto (D.net.config i) env e with
      | ok x =>
        obtain ⟨c', eff⟩ := x
        have hs' : c.step D.crypto (D.net.config i) env e = .ok (c', eff) := hs
        simp only [Replica.step, hs'] at hsigned ⊢
        rw [hs] at hsigns
        have hlegit := legit_of_signs hi (henv env rfl) hsigns hsigned
        exact ⟨_, .single (.event τ i env c e c' eff hi hmirrors he (hP i r c e hσ hmem) hs hlegit), h.set _ rfl⟩
      | error s =>
        have hs' : c.step D.crypto (D.net.config i) env e = .error s := hs
        simp only [Replica.step, hs'] at hsigned ⊢
        rw [hs] at hsigns
        have hlegit := legit_of_signs hi (henv env rfl) hsigns hsigned
        exact ⟨_, .single (.stick τ i env c e s hi hmirrors he (hP i r c e hσ hmem) hs hlegit), h.set _ rfl⟩
    | discard c e queue hlife hq => exact ⟨τ, .refl, h.keep hmirrors⟩

/-- Acts one after the other. -/
theorem steps (hrun : D.Run σ) (h : Sim σ τ) (hsteps : Relation.ReflTransGen D.Step σ σ') :
    ∃ τ', Relation.ReflTransGen (D.net.Step Net.AnyEvent) τ τ' ∧ Sim σ' τ' := by
  induction hsteps with
  | refl => exact ⟨τ, .refl, h⟩
  | tail hsteps hstep ih =>
    obtain ⟨τ₁, hτ₁, h₁⟩ := ih
    obtain ⟨τ₂, hτ₂, h₂⟩ := h₁.step (hrun.trans hsteps) hstep (fun _ _ _ _ _ _ => trivial)
    exact ⟨τ₂, hτ₁.trans hτ₂, h₂⟩

end Sim

theorem sim_init : Sim Cluster.init Sys.init := ⟨rfl, fun _ _ => rfl, fun i r h => by cases h⟩

theorem Reached.sim (h : D.Reached σ) : ∃ τ, D.net.Reached Net.AnyEvent τ ∧ Sim σ τ := by
  obtain ⟨hrun, σ', hlater, hu⟩ := h
  obtain ⟨τ, hτ, hsim⟩ := sim_init.steps .refl hrun
  obtain ⟨τ', hτ', hsim'⟩ := hsim.steps hrun hlater
  refine ⟨τ, ⟨hτ, τ', hτ', ?_⟩, hsim⟩
  rw [hsim'.trace]
  exact hu

end Deployment

/-! ## Runs that can be computed -/

section

variable {G : Group} [∀ s, Decidable (s ∈ G.hashed)]

instance : DecidablePred G.Known
  | .proposal _     => inferInstanceAs (Decidable (_ ∧ _ ∧ _))
  | .vote _         => inferInstanceAs (Decidable (_ ∧ _ ∧ _))
  | .timeout _      => inferInstanceAs (Decidable (_ ∧ _ ∧ _ ∧ _))
  | .localTimeout _ => inferInstanceAs (Decidable True)
  | .block _        => inferInstanceAs (Decidable (_ ∈ _))
  | .blockRequest _ => inferInstanceAs (Decidable True)

instance : DecidablePred G.KnownSigned := fun x =>
  inferInstanceAs (Decidable (∀ p ∈ x.signature, ∀ s ∈ p.1.strings, s ∈ G.hashed))

end

/-- A replica is made, its core is started or steps, or it acts in some other way. -/
inductive Deal where
  | new (i : UInt32)
  | start (i : UInt32)
  | tick (i : UInt32)
  | other (i : UInt32) (a : Act)

namespace Deployment

variable {PublicKey PrivateKey : Type} (D : Deployment PublicKey PrivateKey) [∀ s, Decidable (s ∈ D.net.hashed)]
  (env : UInt32 → Env)

/-- One act; none if it cannot be made. -/
def does (σ : Cluster) (i : UInt32) (a : Act) : Option Cluster :=
  match σ.replica i with
  | none   => none
  | some r =>
    match r.act D.crypto (D.net.config i) a with
    | none   => none
    | some o =>
      if D.net.Honest i ∧ (∀ e ∈ o.took, D.net.Known e) ∧ ∀ x ∈ o.eff, D.net.KnownSigned x then
        some (σ.set i o.replica o.eff)
      else none

def deal (σ : Cluster) : Deal → Option Cluster
  | .new i =>
    match σ.replica i, newReplica D.ecdsa D.sha (D.replica i) with
    | none, some r => if D.net.Honest i then some (σ.set i r []) else none
    | _, _         => none
  | .start i   => D.does σ i (.start (env i))
  | .tick i    => D.does σ i (.tick (env i))
  | .other i a => if a.env.isNone then D.does σ i a else none

def deals : Cluster → List Deal → Option Cluster
  | σ, []      => some σ
  | σ, d :: ds => (D.deal env σ d).bind (fun σ => deals σ ds)

variable {D env} {σ σ' : Cluster}

theorem step_of_does {i : UInt32} {a : Act} (henv : ∀ env, a.env = some env → D.Keyed i env)
    (h : D.does σ i a = some σ') : D.Step σ σ' := by
  unfold does at h
  split at h
  · cases h
  rename_i r hr
  split at h
  · cases h
  rename_i o ho
  split at h
  · rename_i hok
    cases h
    exact .act σ i r a o hok.1 hr henv ho hok.2.1 hok.2.2
  · cases h

theorem step_of_deal (hkeyed : ∀ i, D.Keyed i (env i)) {d : Deal} (h : D.deal env σ d = some σ') : D.Step σ σ' := by
  cases d with
  | new i =>
    rw [deal] at h
    split at h
    · rename_i r hσ hnew
      split at h
      · rename_i hi
        cases h
        exact .new σ i r hi hσ hnew
      · cases h
    · cases h
  | start i =>
    refine step_of_does (fun env' henv => ?_) h
    cases henv
    exact hkeyed i
  | tick i =>
    refine step_of_does (fun env' henv => ?_) h
    cases henv
    exact hkeyed i
  | other i a =>
    rw [deal] at h
    split at h
    · rename_i hnone
      refine step_of_does (fun env' henv => ?_) h
      rw [henv] at hnone
      cases hnone
    · cases h

theorem steps_of_deals (hkeyed : ∀ i, D.Keyed i (env i)) : ∀ {ds : List Deal} {σ : Cluster},
    D.deals env σ ds = some σ' → Relation.ReflTransGen D.Step σ σ'
  | [],      σ, h => by cases h; exact .refl
  | d :: ds, σ, h => by
    rw [deals, Option.bind_eq_some_iff] at h
    obtain ⟨σ₁, hd, hds⟩ := h
    exact .head (step_of_deal hkeyed hd) (steps_of_deals hkeyed hds)

end Deployment

/-! ## Three replicas

Two votes are a quorum of three, so replicas 1 and 2 certify a block a round, and replica 3 may miss one.  Digest `3r`
is the id of block `r`, the two after it are those of its vote; the states are all digest 12, which is that of every
string not listed. -/

namespace Trio

open Chain (low high twin_of_twin unmarshal_low unmarshal_high)

def leader (r : Nat) : UInt32 := if r = 2 then 2 else 1

def sigs : Slice Signature := ⟨[⟨1, low⟩, ⟨2, low⟩], by decide⟩

def info (r : Nat) : VoteInfo :=
  { id := digest (3 * r), round := r.toUInt64, parentId := digest (if r = 1 then 1 else 3 * (r - 1))
    parentRound := (r - 1).toUInt64, execStateId := digest 12 }

def commit (r : Nat) : LedgerCommitInfo := { commitStateId := digest 12, voteInfoHash := digest (3 * r + 1) }

/-- The certificate of block `r`, put together by the next leader. -/
def cert : Nat → QuorumCert
  | 0     => zeroQC (digest 1)
  | r + 1 =>
    { voteInfo := info (r + 1), ledgerCommitInfo := commit (r + 1), signatures := sigs, author := leader (r + 2)
      authorSig := some ⟨leader (r + 2), low⟩ }

def block (r : Nat) : Block :=
  { author := leader r, round := r.toUInt64, payload := default, qc := some (cert (r - 1)), id := digest (3 * r) }

def proposal (r : Nat) : ProposalMsg :=
  { block := some (block r), lastRoundTc := none, highCommitQc := some (cert (r - 1)), sender := leader r
    sig := ⟨leader r, low⟩ }

def vote (r : Nat) (i : UInt32) : VoteMsg :=
  { voteInfo := info r, ledgerCommitInfo := commit r, highCommitQc := some (cert (r - 1)), sender := i,
    sig := ⟨i, low⟩ }

def strings : List (List UInt8) :=
  blockBytes 0 0 default (some genesisSeedQC) :: qcSigsBytes sigs ::
    [1, 2, 3].flatMap (fun r => [(block r).bytes, voteInfoBytes (info r), ledgerCommitBytes (commit r)])

def sha : Crypto where
  sha256 s     := digest (strings.idxOf s + 1)
  sha256_len _ := len_digest _
  verify _ _ _ := false

/-- Who signs which digests: blocks, votes, and the signatures of a certificate. -/
def signed : List (UInt32 × Bytes) :=
  [(1, digest 3), (1, digest 5), (2, digest 5), (2, digest 2), (2, digest 6), (1, digest 8), (2, digest 8),
   (1, digest 2), (1, digest 9), (2, digest 11), (3, digest 11)]

/-- A key is its replica's id. -/
def signs (key : UInt32) (d : Bytes) : Bool := signed.contains (key, d)

/-- `SignASN1` signs what is to be signed, with the higher signature. -/
def ecdsa : Ecdsa UInt32 UInt32 where
  signASN1 key _ d     := if signs key d then some high else none
  verifyASN1 pub d sig := decide ((sig = low ∨ sig = high) ∧ signs pub d = true)
  strict _ _ sig h     := by
    rcases (of_decide_eq_true h).1 with rfl | rfl
    · exact ⟨1, 1, rfl, by decide, by decide⟩
    · exact ⟨1, curveOrder - 1, rfl, by decide, by decide⟩
  twin _ _ sig sig' r s hsig hsig' := by
    rw [decide_eq_true_iff, decide_eq_true_iff]
    refine and_congr_left' ⟨twin_of_twin hsig hsig', twin_of_twin hsig' ?_⟩
    rw [hsig, Int.sub_sub_self]

def keys : Table UInt32 UInt32 := (((∅ : Table UInt32 UInt32).insert 1 1).insert 2 2).insert 3 3

theorem keys_own {i pub : UInt32} (h : keys.lookup i = some pub) : pub = i := by
  have hmem : (⟨i, pub⟩ : Sigma (fun _ : UInt32 => UInt32)) ∈ keys.entries := AList.mem_lookup_iff.1 h
  have hall : keys.entries.all (fun e => e.2 == e.1) = true := by decide +kernel
  exact beq_iff_eq.1 (List.all_eq_true.1 hall _ hmem)

theorem collisionFree : CollisionFree sha {s | s ∈ strings} := by
  have hfits : ∀ s ∈ strings, strings.idxOf s + 1 < 256 ^ 32 := fun s hs =>
    calc strings.idxOf s + 1 ≤ strings.length := List.idxOf_lt_length_iff.2 hs
      _ < 256 ^ 32 := by decide +kernel
  refine ⟨fun s hs t ht h => ?_, fun s hs h => ?_⟩
  · have hidx := digest_inj (hfits s hs) (hfits t ht) h
    exact (List.idxOf_inj hs).1 (Nat.succ.inj hidx)
  · rw [zeroHash_eq_digest] at h
    exact absurd (digest_inj (hfits s hs) (by decide) h) (Nat.succ_ne_zero _)

/-- All three are honest. -/
def deployment : Deployment UInt32 UInt32 where
  ecdsa         := ecdsa
  sha           := sha
  keys          := keys
  replica i     := ⟨i, [1, 2, 3], none, i, keys, 0⟩
  id_eq _       := rfl
  keys_eq _     := rfl
  byzantine     := ∅
  few           := by decide
  paired        := fun i _ pub hpub rand d der hder => by
    have hkey : pub = i := keys_own hpub
    subst hkey
    have hder' : (if signs pub d then some high else none) = some der := hder
    split at hder'
    · rename_i hsigns
      cases hder'
      exact decide_eq_true ⟨.inr rfl, hsigns⟩
    · cases hder'
  hashed        := {s | s ∈ strings}
  collisionFree := collisionFree
  genesis       := List.mem_cons_self

instance (s : List UInt8) : Decidable (s ∈ deployment.net.hashed) := inferInstanceAs (Decidable (s ∈ strings))

def env (i : UInt32) : Env := ⟨(deployment.replica i).signer.sign ecdsa 0, default, 8⟩

theorem keyed (i : UInt32) : deployment.Keyed i (env i) := fun _ _ h => ⟨0, h⟩

/-- Every signature there can be is in the log. -/
def covers (log : List (UInt32 × Signed)) : Bool :=
  signed.all (fun e => log.any (fun x => x.1 == e.1 && sha.sha256 x.2.bytes == e.2))

theorem unforgeable {log : List (UInt32 × Signed)} (h : covers log = true) : deployment.net.Unforgeable log := by
  intro i _ d s hv
  obtain ⟨pub, hpub, hsig⟩ := Signer.verify_signed (S := (deployment.replica 0).signer) hv
  have hkey : pub = i := keys_own hpub
  subst hkey
  have hany := List.all_eq_true.1 h _ (List.contains_iff_mem.1 (of_decide_eq_true hsig).2)
  obtain ⟨⟨j, x⟩, hx, heq⟩ := List.any_eq_true.1 hany
  simp only [Bool.and_eq_true, beq_iff_eq] at heq
  obtain ⟨rfl, hd⟩ := heq
  exact ⟨x, hx, hd⟩

/-- The first two rounds are replicas 1 and 2's.  Replica 3 hears of the second alone, and asks for its parent. -/
def deals : List Deal :=
  [.new 1, .new 2, .new 3, .start 1, .start 2, .start 3, .other 1 .send,
   .other 1 (.receive (.proposal (proposal 1))), .tick 1, .other 2 (.receive (.proposal (proposal 1))), .tick 2,
   .other 2 (.receive (.vote (vote 1 1))), .other 2 (.receive (.vote (vote 1 2))), .tick 2, .tick 2,
   .other 1 (.receive (.proposal (proposal 2))), .tick 1, .other 2 (.receive (.proposal (proposal 2))), .tick 2,
   .other 3 (.receive (.proposal (proposal 2))), .tick 3, .other 3 .send,
   .other 3 (.fetched (digest 3) [block 2, block 1]), .tick 3,
   .other 1 (.receive (.vote (vote 2 1))), .other 1 (.receive (.vote (vote 2 2))), .tick 1, .tick 1,
   .other 2 (.receive (.proposal (proposal 3))), .tick 2, .other 3 (.receive (.proposal (proposal 3))), .tick 3]

/-- Everyone has committed block 1, and replica 3 has executed block 2 over it. -/
def check (σ : Cluster) : Bool :=
  [1, 2, 3].all (fun i => (σ.replica i).any (fun r => r.commits == [block 1])) &&
    decide ((3, .requestBlock (digest 3)) ∈ σ.trace) &&
    (σ.replica 3).any (fun r => r.life.core.any (fun c =>
      (c.ledger.pending.lookup (digest 6)).any (fun s => s.block == block 2)))

theorem played : ∃ σ r₁ r₂ r₃, deployment.Reached σ ∧ σ.replica 1 = some r₁ ∧ σ.replica 2 = some r₂ ∧
    σ.replica 3 = some r₃ ∧ r₁.commits = [block 1] ∧ r₂.commits = [block 1] ∧ r₃.commits = [block 1] ∧
    (3, .requestBlock (digest 3)) ∈ σ.trace ∧
    ∃ c s, r₃.life.core = some c ∧ c.ledger.pending.lookup (digest 6) = some s ∧ s.block = block 2 := by
  have h : (deployment.deals env Cluster.init deals).any (fun σ => check σ && covers (signedLog σ.trace)) = true := by
    decide +kernel
  obtain ⟨σ, hσ, hcheck⟩ := (Option.any_eq_true _ _).1 h
  rw [Bool.and_eq_true, check, Bool.and_eq_true, Bool.and_eq_true, decide_eq_true_iff] at hcheck
  obtain ⟨⟨⟨hlogs, hasked⟩, hexecuted⟩, hcovers⟩ := hcheck
  have hlog : ∀ i ∈ [(1 : UInt32), 2, 3], ∃ r, σ.replica i = some r ∧ r.commits = [block 1] := by
    intro i hi
    obtain ⟨r, hr, heq⟩ := (Option.any_eq_true _ _).1 (List.all_eq_true.1 hlogs i hi)
    exact ⟨r, hr, beq_iff_eq.1 heq⟩
  obtain ⟨r₁, hr₁, h₁⟩ := hlog 1 (by simp)
  obtain ⟨r₂, hr₂, h₂⟩ := hlog 2 (by simp)
  obtain ⟨r₃, hr₃, h₃⟩ := hlog 3 (by simp)
  obtain ⟨r, hr, hcore⟩ := (Option.any_eq_true _ _).1 hexecuted
  cases hr₃.symm.trans hr
  obtain ⟨c, hc, hpending⟩ := (Option.any_eq_true _ _).1 hcore
  obtain ⟨s, hs, hblock⟩ := (Option.any_eq_true _ _).1 hpending
  have hrun := Deployment.steps_of_deals keyed hσ
  exact ⟨σ, r₁, r₂, r₃, ⟨hrun, σ, .refl, unforgeable hcovers⟩, hr₁, hr₂, hr₃, h₁, h₂, h₃, hasked, c, s, hc, hs,
    beq_iff_eq.1 hblock⟩

end Trio

/-- **Deployed replicas are cores against an adversary**: whatever goroutines, queues, handlers and senders do, and in
whatever order, the state of a run of replicas is one of a run of their cores, with the same trace and with the core
that each is at.  Everything shown of the cores of a group holds of its replicas. -/
theorem deployment_refines {PublicKey PrivateKey : Type} {D : Deployment PublicKey PrivateKey} {σ : Cluster}
    (h : D.Reached σ) :
    ∃ τ, D.net.Reached Net.AnyEvent τ ∧ τ.trace = σ.trace ∧
      (∀ i, σ.replica i = none → τ.status i = .fresh) ∧
      ∀ i r, σ.replica i = some r → Deployment.Mirrors r.life (τ.status i) := by
  obtain ⟨τ, hτ, hsim⟩ := h.sim
  exact ⟨τ, hτ, hsim.trace, hsim.fresh, hsim.mirrors⟩

/-- The three replicas have committed a block, and so have their cores. -/
theorem trio_refines :
    ∃ σ r τ, Trio.deployment.Reached σ ∧ σ.replica 1 = some r ∧ r.commits = [Trio.block 1] ∧
      Trio.deployment.net.Reached Net.AnyEvent τ ∧ τ.trace = σ.trace ∧ Deployment.Mirrors r.life (τ.status 1) := by
  obtain ⟨σ, r, -, -, hσ, hr, -, -, hcommits, -⟩ := Trio.played
  obtain ⟨τ, hτ, htrace, -, hmirrors⟩ := deployment_refines hσ
  exact ⟨σ, r, τ, hσ, hr, hcommits, hτ, htrace, hmirrors 1 r hr⟩

/-! ## The report -/

inductive ReportError where
  | disagree (i j : UInt32) (commit : Nat)
  | noBlock (i : UInt32)
deriving DecidableEq

def ReportError.text : ReportError → String
  | .disagree i j k => "replicas " ++ toString i ++ " and " ++ toString j ++ " disagree at commit " ++ toString k
  | .noBlock i      => "replica " ++ toString i ++ " committed no block"

/-- The line printed for a replica. -/
def Replica.line (id : UInt32) (r : Replica) : String :=
  "replica " ++ toString id ++ ": committed " ++ toString r.commits.length ++ " (" ++ toString r.commands ++
    " commands), dropped " ++ toString r.net.dropped ++ ", declined for a missing ancestor " ++ toString r.declined ++
    ", rejected " ++ toString r.handler.rejected ++ ", queue high-water " ++ toString r.high

def agreeText : String := "logs agree over their common prefix"

/-- The first place at which two logs differ. -/
def differAt : List Block → List Block → Option Nat
  | a :: as, b :: bs => if a.id ≠ b.id then some 0 else (differAt as bs).map (· + 1)
  | _,       _       => none

/-- The first two replicas whose logs differ, each compared with those behind it. -/
def disagreement : List (UInt32 × Replica) → Option ReportError
  | []           => none
  | (i, r) :: rs =>
    match rs.findSome? (fun s => (differAt r.commits s.2.commits).map (ReportError.disagree i s.1)) with
    | some e => some e
    | none   => disagreement rs

/-- `report`: what it prints, and the error it returns. -/
def report (reps : List (UInt32 × Replica)) : List String × Option ReportError :=
  let lines := reps.map (fun s => s.2.line s.1)
  match disagreement reps with
  | some e => (lines, some e)
  | none   =>
    (if 1 < reps.length then lines ++ [agreeText] else lines,
      (reps.find? (fun s => s.2.commits.isEmpty)).map (fun s => .noBlock s.1))

theorem differAt_eq_none {as bs : List Block}
    (h : as.map Block.id <+: bs.map Block.id ∨ bs.map Block.id <+: as.map Block.id) : differAt as bs = none := by
  induction as generalizing bs with
  | nil => rfl
  | cons a as ih =>
    cases bs with
    | nil => rfl
    | cons b bs =>
      simp only [List.map_cons, List.cons_prefix_cons] at h
      have hid : a.id = b.id := h.elim (fun h => h.1) (fun h => h.1.symm)
      rw [differAt, if_neg (not_not.2 hid), ih (h.imp (fun h => h.2) (fun h => h.2))]
      rfl

theorem disagreement_eq_none {reps : List (UInt32 × Replica)}
    (h : reps.Pairwise (fun s t => differAt s.2.commits t.2.commits = none)) : disagreement reps = none := by
  induction reps with
  | nil => rfl
  | cons s reps ih =>
    obtain ⟨hs, hreps⟩ := List.pairwise_cons.1 h
    have hnone : reps.findSome? (fun t => (differAt s.2.commits t.2.commits).map (ReportError.disagree s.1 t.1)) =
        none := by
      rw [List.findSome?_eq_none_iff]
      intro t ht
      rw [hs t ht]
      rfl
    rw [disagreement, hnone, ih hreps]

theorem map_id_committedBlocks (eff : List Effect) : (committedBlocks eff).map Block.id = committedIDs eff := by
  rw [committedBlocks, committedIDs, List.map_filterMap]
  congr 1
  funext x
  cases x <;> rfl

/-- **The report never finds a disagreement**: of a run of replicas, at whatever moment their logs are read and in
whatever order they are given, `report` prints that the logs agree, and its only error is of the first replica without a
block. -/
theorem report_agrees {PublicKey PrivateKey : Type} {D : Deployment PublicKey PrivateKey} {σ : Cluster}
    (h : D.Reached σ) (reps : List (UInt32 × Replica)) (hreps : ∀ s ∈ reps, σ.replica s.1 = some s.2) :
    report reps =
      (if 1 < reps.length then reps.map (fun s => s.2.line s.1) ++ [agreeText] else reps.map (fun s => s.2.line s.1),
        (reps.find? (fun s => s.2.commits.isEmpty)).map (fun s => .noBlock s.1)) := by
  obtain ⟨τ, hτ, hsim⟩ := h.sim
  obtain ⟨log, hb⟩ := hτ.ballots
  have hids : ∀ s ∈ reps, s.2.commits.map Block.id = committedIDs (τ.effects s.1) := by
    intro s hs
    obtain ⟨took, gave, done, hkept, -, -⟩ := h.1.kept (hreps s hs)
    rw [hkept.commits, map_id_committedBlocks, Cluster.effects, ← hsim.trace]
    rfl
  have hnone : disagreement reps = none := by
    refine disagreement_eq_none (List.pairwise_of_forall_mem_list (fun s hs t ht => differAt_eq_none ?_))
    rw [hids s hs, hids t ht]
    obtain ⟨x, hx⟩ := exists_committed hb hτ.1 s.1
    obtain ⟨y, hy⟩ := exists_committed hb hτ.1 t.1
    exact hb.committed_comparable hx hy
  rw [report, hnone]

/-- The three logs are of one block each, and the report says that they agree and returns no error. -/
theorem trio_report :
    ∃ σ r₁ r₂ r₃, Trio.deployment.Reached σ ∧ σ.replica 1 = some r₁ ∧ σ.replica 2 = some r₂ ∧ σ.replica 3 = some r₃ ∧
      agreeText ∈ (report [(1, r₁), (2, r₂), (3, r₃)]).1 ∧ (report [(1, r₁), (2, r₂), (3, r₃)]).2 = none := by
  obtain ⟨σ, r₁, r₂, r₃, hσ, hr₁, hr₂, hr₃, h₁, h₂, h₃, -⟩ := Trio.played
  have hreport := report_agrees hσ [(1, r₁), (2, r₂), (3, r₃)] (by
    intro s hs
    simp only [List.mem_cons, List.not_mem_nil, or_false] at hs
    rcases hs with rfl | rfl | rfl
    · exact hr₁
    · exact hr₂
    · exact hr₃)
  refine ⟨σ, r₁, r₂, r₃, hσ, hr₁, hr₂, hr₃, ?_, ?_⟩
  · rw [hreport]
    simp
  · rw [hreport]
    simp [h₁, h₂, h₃]

end Diem

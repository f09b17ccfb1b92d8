import Diem.Elections
/-!
# Candidates — who can be elected

An election reads signers and authors off committed blocks, and some of those were fetched: their certificates were
never verified here.  But a committed block is certified, so an honest replica voted for it, under a certificate that it
did verify, and the id of a block covers the signatures of its certificate.  The signers read here are the signers
verified there, and `Verify` knows no others than the validators.
-/
namespace Diem

/-- Among the first `k` different ones: fewer than `k` stand before it. -/
def AmongFirst {α : Type} [DecidableEq α] (k : Int) (as : List α) (a : α) : Prop :=
  ∃ before after, as = before ++ a :: after ∧ (before.toFinset.card : Int) < k

namespace LeaderElection

/-- **The turns of the walk**, the first `n` of them: a certificate, and the committed block that it names as the parent
of its own; the next certificate is the one that block carries. -/
def turns (l : MemLedger) : Nat → QuorumCert → List (QuorumCert × Block)
  | 0,     _       => []
  | n + 1, current =>
    match l.committedBlock current.voteInfo.parentId with
    | none   => []
    | some b => (current, b) :: b.qc.elim [] (turns l n)

end LeaderElection

/-- **Who may be elected on `qc`**: a validator, with a valid signature in one of the first `windowSize` certificates of
the walk, that is not among the first `excludeSize` authors of its blocks. -/
structure Electable (G : Group) (cfg : Config) (l : MemLedger) (qc : QuorumCert) (id : UInt32) : Prop where
  member   : id ∈ G.validators
  active   : ∃ x ∈ LeaderElection.turns l cfg.window.toNat qc, ∃ s ∈ x.1.signatures.elems, s.signer = id ∧
               ∃ q, G.AcceptsQC (some q) ∧ q.voteInfo.id = x.1.voteInfo.id ∧ q.signatures = x.1.signatures ∧
                 verifySig G.crypto (ledgerCommitDigest G.crypto q.ledgerCommitInfo) s = true
  excluded : ∀ n, ¬ AmongFirst cfg.exclude ((LeaderElection.turns l n qc).map (fun x => x.2.author)) id

namespace LeaderElection

variable {window exclude : Int} {l : MemLedger}

/-! ## What the walk gathers -/

/-- **A walk that ends** stops here, or takes a turn and ends there or further on. -/
theorem walk_ok {n i : Nat} {current : QuorumCert} {w w' : Walk} (h : walk window exclude l n i current w = .ok w') :
    (w' = w ∧ (¬ ((i : Int) < window ∨ (w.excluded.length : Int) < exclude) ∨
      l.committedBlock current.voteInfo.parentId = none)) ∨
    ∃ b, l.committedBlock current.voteInfo.parentId = some b ∧
      ((b.qc = none ∧ w' = w.visit window exclude i current b) ∨
        ∃ qc m, b.qc = some qc ∧ n = m + 1 ∧
          walk window exclude l m (i + 1) qc (w.visit window exclude i current b) = .ok w') := by
  rw [walk] at h
  split at h
  · split at h
    · rename_i hnone
      cases h
      exact .inl ⟨rfl, .inr hnone⟩
    · rename_i b hb
      dsimp only at h
      split at h
      · rename_i hqc
        cases h
        exact .inr ⟨b, hb, .inl ⟨hqc, rfl⟩⟩
      · rename_i qc hqc
        cases n with
        | zero => cases h
        | succ m => exact .inr ⟨b, hb, .inr ⟨qc, m, hqc, rfl, h⟩⟩
  · rename_i hgo
    cases h
    exact .inl ⟨rfl, .inl hgo⟩

/-- **Induction along a walk that ends**, from where it stops back to where it began. -/
theorem walk_induct {C : Nat → QuorumCert → Walk → Prop} {w' : Walk}
    (stop : ∀ (i : Nat) (current : QuorumCert), ¬ ((i : Int) < window ∨ (w'.excluded.length : Int) < exclude) ∨
      l.committedBlock current.voteInfo.parentId = none → C i current w')
    (turn : ∀ i current w b, l.committedBlock current.voteInfo.parentId = some b →
      ((b.qc = none ∧ w' = w.visit window exclude i current b) ∨
        ∃ qc, b.qc = some qc ∧ C (i + 1) qc (w.visit window exclude i current b)) → C i current w) :
    ∀ {n i : Nat} {current : QuorumCert} {w : Walk}, walk window exclude l n i current w = .ok w' → C i current w := by
  intro n
  induction n using Nat.strongRecOn with
  | ind n ih =>
    intro i current w h
    rcases walk_ok h with ⟨rfl, hstop⟩ | ⟨b, hb, hlast | ⟨qc, m, hqc, rfl, hrest⟩⟩
    · exact stop i current hstop
    · exact turn i current w b hb (.inl hlast)
    · exact turn i current w b hb (.inr ⟨qc, hqc, ih m (Nat.lt_succ_self m) hrest⟩)

theorem mem_visit_active {w : Walk} {i : Nat} {current : QuorumCert} {b : Block} {a : UInt32}
    (h : a ∈ (w.visit window exclude i current b).active) :
    a ∈ w.active ∨ ((i : Int) < window ∧ ∃ s ∈ current.signatures.elems, s.signer = a) := by
  have hfold : ∀ (ss : List Signature) (as : List UInt32), a ∈ ss.foldl (fun a s => a.insert s.signer) as →
      a ∈ as ∨ ∃ s ∈ ss, s.signer = a := by
    intro ss
    induction ss with
    | nil => exact fun as h => .inl h
    | cons s ss ih =>
      intro as h
      rcases ih _ h with h | ⟨s', hs', rfl⟩
      · rcases List.mem_insert_iff.1 h with rfl | h
        · exact .inr ⟨s, List.mem_cons_self, rfl⟩
        · exact .inl h
      · exact .inr ⟨s', List.mem_cons_of_mem _ hs', rfl⟩
  rw [Walk.visit] at h
  dsimp only at h
  split at h
  · rename_i hi
    exact (hfold _ _ h).imp_right (fun hs => ⟨hi, hs⟩)
  · exact .inl h

/-- The signers gathered are those of the turns within the window. -/
theorem walk_active {n i : Nat} {current : QuorumCert} {w w' : Walk}
    (h : walk window exclude l n i current w = .ok w') : ∀ a ∈ w'.active, a ∈ w.active ∨
      ∃ x ∈ turns l (window.toNat - i) current, ∃ s ∈ x.1.signatures.elems, s.signer = a := by
  refine walk_induct (C := fun i current w => ∀ a ∈ w'.active, a ∈ w.active ∨
      ∃ x ∈ turns l (window.toNat - i) current, ∃ s ∈ x.1.signatures.elems, s.signer = a)
    (fun i current _ a ha => .inl ha) (fun i current w b hb hnext a ha => ?_) h
  -- a turn past the window adds no signer, and one within it is the first of those that are left
  have hcons : (i : Int) < window → turns l (window.toNat - i) current =
      (current, b) :: b.qc.elim [] (turns l (window.toNat - (i + 1))) := by
    intro hi
    rw [show window.toNat - i = window.toNat - (i + 1) + 1 by omega, turns, hb]
  have hvisit : a ∈ (w.visit window exclude i current b).active → a ∈ w.active ∨
      ∃ x ∈ turns l (window.toNat - i) current, ∃ s ∈ x.1.signatures.elems, s.signer = a := by
    intro h
    refine (mem_visit_active h).imp_right (fun ⟨hi, hs⟩ => ⟨(current, b), ?_, hs⟩)
    rw [hcons hi]
    exact List.mem_cons_self
  rcases hnext with ⟨-, rfl⟩ | ⟨qc, hqc, ih⟩
  · exact hvisit ha
  · rcases ih a ha with h | ⟨x, hx, hs⟩
    · exact hvisit h
    · refine .inr ⟨x, ?_, hs⟩
      by_cases hi : (i : Int) < window
      · rw [hcons hi, hqc]
        exact List.mem_cons_of_mem _ hx
      · rw [show window.toNat - (i + 1) = 0 by omega] at hx
        cases hx

/-- What `visit` does to the authors. -/
theorem visit_excluded (w : Walk) (i : Nat) (current : QuorumCert) (b : Block) :
    (w.visit window exclude i current b).excluded =
      if (w.excluded.length : Int) < exclude then w.excluded.insert b.author else w.excluded := rfl

theorem nodup_visit (window exclude : Int) {w : Walk} (h : w.excluded.Nodup) (i : Nat)
    (current : QuorumCert) (b : Block) : (w.visit window exclude i current b).excluded.Nodup := by
  rw [visit_excluded]
  split
  · exact h.insert
  · exact h

theorem subset_visit (window exclude : Int) (w : Walk) (i : Nat) (current : QuorumCert) (b : Block) :
    w.excluded ⊆ (w.visit window exclude i current b).excluded := by
  rw [visit_excluded]
  split
  · exact List.subset_insert _ _
  · exact List.Subset.refl _

/-- **The authors gathered are the first `excludeSize` different ones**, counting those gathered before: an author with
fewer before it is among them. -/
theorem walk_excluded {n i : Nat} {current : QuorumCert} {w w' : Walk}
    (h : walk window exclude l n i current w = .ok w') (hnodup : w.excluded.Nodup) :
    w.excluded ⊆ w'.excluded ∧
      ∀ k before a after, (turns l k current).map (fun x => x.2.author) = before ++ a :: after →
        ((w.excluded ++ before).toFinset.card : Int) < exclude → a ∈ w'.excluded := by
  refine walk_induct (C := fun _ current w => w.excluded.Nodup → w.excluded ⊆ w'.excluded ∧
      ∀ k before a after, (turns l k current).map (fun x => x.2.author) = before ++ a :: after →
        ((w.excluded ++ before).toFinset.card : Int) < exclude → a ∈ w'.excluded)
    (fun i current hstop hnodup => ⟨List.Subset.refl _, fun k before a after hturns hfew => ?_⟩)
    (fun i current w b hb hnext hnodup => ?_) h hnodup
  · rcases hstop with hfull | hnone
    · have hle : w'.excluded.toFinset.card ≤ (w'.excluded ++ before).toFinset.card := by
        rw [List.toFinset_append]
        exact Finset.card_le_card Finset.subset_union_left
      rw [List.toFinset_card_of_nodup hnodup] at hle
      omega
    · cases k with
      | zero => simp [turns] at hturns
      | succ k => simp [turns, hnone] at hturns
  · have hvisited := subset_visit window exclude w i current b
    have hrest : (w.visit window exclude i current b).excluded ⊆ w'.excluded := by
      rcases hnext with ⟨-, rfl⟩ | ⟨qc, -, ih⟩
      · exact List.Subset.refl _
      · exact (ih (nodup_visit window exclude hnodup i current b)).1
    refine ⟨List.Subset.trans hvisited hrest, fun k before a after hturns hfew => ?_⟩
    cases k with
    | zero => simp [turns] at hturns
    | succ k =>
      rw [turns, hb, List.map_cons] at hturns
      cases before with
      | nil =>
        -- the author of this turn, and there is room for it
        obtain ⟨rfl, -⟩ := List.cons.inj hturns
        rw [List.append_nil, List.toFinset_card_of_nodup hnodup] at hfew
        refine hrest ?_
        rw [visit_excluded, if_pos hfew]
        exact List.mem_insert_self
      | cons c before =>
        obtain ⟨rfl, htail⟩ := List.cons.inj hturns
        rcases hnext with ⟨hqc, -⟩ | ⟨qc, hqc, ih⟩
        · simp [hqc] at htail
        · rw [hqc] at htail
          refine (ih (nodup_visit window exclude hnodup i current b)).2 k before a after htail
            (Int.lt_of_le_of_lt ?_ hfew)
          refine Int.ofNat_le.2 (Finset.card_le_card (fun x hx => ?_))
          rw [List.mem_toFinset, List.mem_append] at hx ⊢
          rcases hx with hx | hx
          · rw [visit_excluded] at hx
            split at hx
            · rcases List.mem_insert_iff.1 hx with rfl | hx
              · exact .inr List.mem_cons_self
              · exact .inl hx
            · exact .inl hx
          · exact .inr (List.mem_cons_of_mem _ hx)

/-- The certificates of the walk are the one it began with and those of committed blocks. -/
theorem turns_certificate {n : Nat} {current : QuorumCert} {x : QuorumCert × Block} (h : x ∈ turns l n current) :
    x.1 = current ∨ ∃ id b, l.committed.lookup id = some b ∧ b.qc = some x.1 := by
  induction n generalizing current with
  | zero => cases h
  | succ n ih =>
    rw [turns] at h
    split at h
    · cases h
    · rename_i b hb
      rcases List.mem_cons.1 h with rfl | h
      · exact .inl rfl
      · cases hqc : b.qc with
        | none =>
          rw [hqc] at h
          cases h
        | some qc =>
          rw [hqc] at h
          rcases ih h with hx | hx
          · exact .inr ⟨_, b, hb, by rw [hqc, hx]⟩
          · exact .inr hx

theorem updateLeaders_validators {cr : Crypto} {cfg : Config} {fuel : Nat} {currentRound : UInt64}
    {e e' : LeaderElection} {qc : QuorumCert} (h : e.updateLeaders cr cfg fuel l currentRound qc = .ok e') :
    e'.validators = e.validators := by
  rcases updateLeaders_ok h with ⟨-, rfl⟩ | ⟨-, -, elected, -, rfl⟩
  · rfl
  · rfl

/-- **Who is elected** signed a turn within the window, and is not among the first authors. -/
theorem elect_candidate {cr : Crypto} {cfg : Config} {fuel : Nat} {qc : QuorumCert} {id : UInt32}
    (h : electReputationLeader cr cfg fuel l qc = .ok (some id)) :
    (∃ x ∈ turns l cfg.window.toNat qc, ∃ s ∈ x.1.signatures.elems, s.signer = id) ∧
      ∀ n, ¬ AmongFirst cfg.exclude ((turns l n qc).map (fun x => x.2.author)) id := by
  obtain ⟨w, hw, hleader⟩ := electReputationLeader_eq h
  have hmem := (List.perm_insertionSort _ _).mem_iff.1 (List.mem_of_getElem? hleader)
  simp only [List.mem_filter, Bool.not_eq_true', decide_eq_false_iff_not] at hmem
  obtain ⟨hactive, hnot⟩ := hmem
  refine ⟨(walk_active hw id hactive).resolve_left List.not_mem_nil, fun n hfirst => hnot ?_⟩
  obtain ⟨before, after, hturns, hfew⟩ := hfirst
  exact (walk_excluded hw List.nodup_nil).2 n before id after hturns hfew

end LeaderElection

/-! ## Whose signatures those are -/

theorem Group.AcceptsQC.signed {G : Group} {q : QuorumCert} (h : G.AcceptsQC (some q)) :
    ∀ s ∈ q.signatures.elems, verifySig G.crypto (ledgerCommitDigest G.crypto q.ledgerCommitInfo) s = true := by
  rcases ((G.verifier.verifyQC_iff q).1 h.1).2 with ⟨-, hg⟩ | ⟨-, -, -, hcert, -⟩
  · intro s hs
    rw [hg] at hs
    cases hs
  · exact ((G.verifier.verifyCert_iff _ _).1 hcert).2.1

/-- **The signatures a certified block carries were verified**: they are those of an accepted certificate of its parent.
Genesis carries none. -/
theorem Ballots.carried {G : Group} {log : List (UInt32 × Signed)} (hb : Ballots G log) {b : Block} {q : QuorumCert}
    (hid : G.CertifiedID b.id) (hblock : G.IsBlock b) (hlen : (parentID b).len = hashLen) (hq : b.qc = some q) :
    q.signatures.elems = [] ∨
      ∃ q', G.AcceptsQC (some q') ∧ q'.voteInfo.id = q.voteInfo.id ∧ q'.signatures = q.signatures := by
  obtain ⟨qc, hqc, hcid⟩ := hid
  obtain ⟨c, rfl⟩ := hqc.eq_some
  have hlen' : (certifiedID b.qc).len = hashLen := by rw [← parentID_eq]; exact hlen
  by_cases h0 : c.voteInfo.round = 0
  · have hgen : b.id = (genesisBlock G.crypto).id := by
      rw [← hcid, hqc.eq_genesisQC h0]
      rfl
    obtain ⟨-, -, -, -, hsigs⟩ := blockBytes_inj hlen' (hblock.bytes_eq G.isBlock_genesis hgen)
    rw [hq] at hsigs
    refine .inl ?_
    rw [show q.signatures = certSigs (genesisBlock G.crypto).qc from hsigs]
    rfl
  · obtain ⟨b', tc, hv⟩ := hb.vouched hqc h0
    obtain ⟨q', hq'⟩ := hv.qc.eq_some
    have hbb : b.id = b'.id := hcid.symm.trans hv.id_eq
    obtain ⟨-, -, -, hpar, hsigs⟩ :=
      blockBytes_inj (hlen'.trans hv.qc.certifiedID_len.symm) (hblock.bytes_eq hv.block hbb)
    rw [hq, hq'] at hpar hsigs
    exact .inr ⟨q', hq' ▸ hv.qc, hpar.symm, hsigs.symm⟩

/-- **Whoever is elected on an accepted certificate may be.** -/
theorem LedgerInv.electable {G : Group} {log : List (UInt32 × Signed)} (hb : Ballots G log) {l : MemLedger}
    (hl : LedgerInv G G.IsBlock l) {cfg : Config} {fuel : Nat} {qc : QuorumCert} {id : UInt32}
    (hq : G.AcceptsQC (some qc)) (h : LeaderElection.electReputationLeader G.crypto cfg fuel l qc = .ok (some id)) :
    Electable G cfg l qc id := by
  obtain ⟨⟨x, hx, s, hs, hsigner⟩, hexcluded⟩ := LeaderElection.elect_candidate h
  have hattested : ∃ q, G.AcceptsQC (some q) ∧ q.voteInfo.id = x.1.voteInfo.id ∧ q.signatures = x.1.signatures := by
    rcases LeaderElection.turns_certificate hx with heq | ⟨bid, b, hlook, hbqc⟩
    · rw [heq]
      exact ⟨qc, hq, rfl, rfl⟩
    · have hempty : x.1.signatures.elems ≠ [] := List.ne_nil_of_mem hs
      obtain ⟨rfl, rfl | ⟨hblock, hcid, hparent⟩⟩ := hl.committed bid b hlook
      · rw [← Option.some.inj hbqc] at hempty
        exact absurd rfl hempty
      · exact (hb.carried hcid hblock hparent.len hbqc).resolve_left hempty
  obtain ⟨q, hq', hqid, hsigs⟩ := hattested
  have hverified := hq'.signed s (by rw [hsigs]; exact hs)
  refine ⟨?_, ⟨x, hx, s, hs, hsigner, q, hq', hqid, hsigs, hverified⟩, hexcluded⟩
  rw [← hsigner]
  exact G.registered _ _ _ hverified

/-! ## Runs -/

/-- **In a step on `e`**: an honest replica, running in `σ`, is at `c` after some micro steps. -/
def Net.Within (N : Net) (P : UInt32 → Core → Event → Prop) (σ : Sys) (i : UInt32) (env : Env) (e : Event) (c : Core) :
    Prop :=
  N.Honest i ∧ ∃ c₀ eff, σ.status i = .running c₀ ∧ N.Admits e ∧ P i c₀ e ∧ N.Micros i env c₀ e c₀ eff c ∧
    ∀ x ∈ eff, N.Legit i x

/-- **`UpdateLeaders` is called** at `c` in a step on `e`: on a certificate that came with the event or that its vote
just completed, once `ProcessQC` has left the ledger `l`. -/
inductive Net.Updating (N : Net) (i : UInt32) (env : Env) (e : Event) (c : Core) (l : MemLedger) (qc : QuorumCert) :
    Prop
  | cert (t : BlockTree) (bs : List Block) (hsrc : qc ∈ e.qcs)
      (h : BlockTree.processQC (N.config i).history env.fuel c.ledger c.tree (some qc) = .ok (l, t, bs))
  | assembled (m : VoteMsg) (t : BlockTree) (bs : List Block) (hm : e = .vote m)
      (hqc : (c.tree.accumulate N.crypto env i N.verifier.quorum m).2 = some qc) (hok : N.Legit i (.assembled qc))
      (h : BlockTree.processQC (N.config i).history env.fuel c.ledger
        (c.tree.accumulate N.crypto env i N.verifier.quorum m).1 (some qc) = .ok (l, t, bs))

/-- **The leaders of a core**: the rotation is that of the validators, and only validators are elected. -/
structure Led (N : Net) (tr : List Effect) (c : Core) : Prop where
  core     : CoreInv N.toGroup N.IsBlock tr c
  rotation : c.leaders.validators = N.validators.insertionSort (· ≤ ·)
  elected  : c.leaders.reputationLeaders.Holds (fun _ id => id ∈ N.validators)

section

variable {N : Net} {log : List (UInt32 × Signed)} {i : UInt32} {env : Env} {c₀ : Core} {e : Event}
  {tr eff : List Effect} {c c' : Core} {l : MemLedger} {qc : QuorumCert}

/-- A micro step leaves the leaders alone, or calls `UpdateLeaders`. -/
theorem micro_leaders (hm : N.Micro i env c₀ e c eff c') (hok : ∀ x ∈ eff, N.Legit i x) :
    c'.leaders = c.leaders ∨ ∃ l qc, N.Updating i env e c l qc ∧
      c.leaders.updateLeaders N.crypto (N.config i) env.fuel l c.pacemaker.currentRound qc = .ok c'.leaders := by
  cases hm with
  | cert _ qc _ moved _ hsrc hp =>
    obtain ⟨l, t, bs, le, hproc, hle, rfl, -, -⟩ := Core.processCertificateQC_ok hp
    exact .inr ⟨l, qc, .cert t bs hsrc hproc, hle⟩
  | aggregate _ m qc _ moved eff' hm hwin hqc hp =>
    obtain ⟨l, t, bs, le, hproc, hle, rfl, -, -⟩ := Core.processCertificateQC_ok hp
    exact .inr ⟨l, qc, .assembled m t bs hm hqc (hok _ List.mem_cons_self) hproc, hle⟩
  | insert _ b _ _ hsrc hp =>
    obtain ⟨rfl, -⟩ := Core.insert_ok hp
    exact .inl rfl
  | complete _ m tc _ hm htc hlen hround hc' =>
    subst hc'
    exact .inl rfl
  | tc => exact .inl rfl
  | vote => exact .inl rfl
  | stop => exact .inl rfl
  | timeout => exact .inl rfl
  | note => exact .inl rfl
  | voteQC => exact .inl rfl
  | gather => exact .inl rfl
  | reply => exact .inl rfl

theorem led_start (hnew : newCore N.crypto (N.config i) = some c) :
    Led N (c.start N.crypto (N.config i) env).2 (c.start N.crypto (N.config i) env).1 := by
  have hcore : CoreInv N.toGroup N.IsBlock (c.start N.crypto (N.config i) env).2
      (c.start N.crypto (N.config i) env).1 :=
    coreInv_start hnew
  cases newCore_eq hnew
  refine ⟨hcore, ?_, Table.holds_empty _⟩
  show (N.config i).validators.insertionSort (· ≤ ·) = _
  rw [N.members]

variable (hb : Ballots N.toGroup log)
include hb

/-- **What `UpdateLeaders` is called on**: an accepted certificate, and a ledger whose committed blocks are certified.
-/
theorem CoreInv.updating (he : N.Admits e) (h : CoreInv N.toGroup N.IsBlock tr c) (hu : N.Updating i env e c l qc) :
    N.AcceptsQC (some qc) ∧ LedgerInv N.toGroup N.IsBlock l := by
  cases hu with
  | cert t bs hsrc hp =>
    have hq := he.qcs qc hsrc
    exact ⟨hq, (h.processQC (fun _ hb => hb) hb hq hp).ledger⟩
  | assembled m t bs hm hqc hok hp =>
    subst hm
    obtain ⟨hq, -, h'⟩ := h.assembled hb he hqc hok
    exact ⟨hq, (h'.processQC (fun _ hb => hb) hb hq hp).ledger⟩

/-- **Every micro step keeps the invariant.** -/
theorem led_micro (he : N.Admits e) (h : Led N tr c) (hm : N.Micro i env c₀ e c eff c') (hok : ∀ x ∈ eff, N.Legit i x) :
    Led N (tr ++ eff) c' := by
  have hcore := coreInv_micro (fun _ hb => hb) hb he (fun _ hsrc => he.isBlock hsrc) h.core hm hok
  rcases micro_leaders hm hok with hsame | ⟨l, qc, hu, hle⟩
  · exact ⟨hcore, hsame ▸ h.rotation, hsame ▸ h.elected⟩
  · obtain ⟨hq, hl⟩ := h.core.updating hb he hu
    refine ⟨hcore, ?_, fun r id hr => ?_⟩
    · rw [← h.rotation]
      exact LeaderElection.updateLeaders_validators hle
    · rcases LeaderElection.lookup_updateLeaders hle hr with hr | ⟨-, -, -, hel⟩
      · exact h.elected r id hr
      · exact (hl.electable hb hq hel).member

end

/-- A core whose leaders are so names a validator for every round. -/
theorem Led.getLeader {N : Net} {tr : List Effect} {c : Core} (h : Led N tr c) (hne : N.validators ≠ []) (r : UInt64) :
    c.leaders.getLeader r ∈ N.validators := by
  unfold LeaderElection.getLeader
  split
  · rename_i id hr
    exact h.elected r id hr
  · have hpos : 0 < (N.validators.insertionSort (· ≤ ·)).length := by
      rw [List.length_insertionSort]
      exact List.length_pos_iff.2 hne
    have hlt := Nat.mod_lt (r.toNat / 2) hpos
    rw [h.rotation, List.getD, List.getElem?_eq_getElem hlt, Option.getD_some]
    exact (List.perm_insertionSort _ _).mem_iff.1 (List.getElem_mem hlt)

/-- **Who can be elected**: wherever an honest replica is in a run, `GetLeader` names a validator for every round; and
of what a call of `UpdateLeaders` there leaves, whatever the table `leaders` it finds, every entry was there before, or
is for the round after the current one and for somebody who may be elected. -/
theorem only_electable {N : Net} {σ : Sys} (h : N.Reached Net.AnyEvent σ) {i : UInt32} {env : Env}
    {e : Event} {c : Core} (hc : N.Within Net.AnyEvent σ i env e c) :
    (∀ r, c.leaders.getLeader r ∈ N.validators) ∧
    ∀ l qc, N.Updating i env e c l qc → ∀ leaders leaders' : LeaderElection,
      leaders.updateLeaders N.crypto (N.config i) env.fuel l c.pacemaker.currentRound qc = .ok leaders' →
      ∀ round id, leaders'.reputationLeaders.lookup round = some id →
        leaders.reputationLeaders.lookup round = some id ∨
          round = c.pacemaker.currentRound + 1 ∧ Electable N.toGroup (N.config i) l qc id := by
  obtain ⟨log, hb⟩ := h.ballots
  obtain ⟨hi, c₀, eff, hc₀, he, -, hm, hok⟩ := hc
  have hrun := Net.Run.invariant (J := fun _ tr c => Led N tr c) (K := fun _ _ => True)
    (fun _ _ _ hnew _ => led_start hnew) (fun _ _ _ _ _ _ _ _ _ he _ hJ hm hok => led_micro hb he hJ hm hok)
    (fun _ _ _ _ _ _ _ _ _ _ _ _ _ => trivial) h.1
  have hled := hm.invariant (fun tr c eff c' hJ hm hok => led_micro hb he hJ hm hok) ((hrun i).2.1 c₀ hc₀) hok
  refine ⟨hled.getLeader (List.ne_nil_of_mem hi.1), fun l qc hu leaders leaders' hle round id hr => ?_⟩
  obtain ⟨hq, hl⟩ := hled.core.updating hb he hu
  rcases LeaderElection.lookup_updateLeaders hle hr with hold | ⟨-, -, hround, hel⟩
  · exact .inl hold
  · exact .inr ⟨hround, hl.electable hb hq hel⟩

namespace Chain

/-- Block 3 comes to replica 4 without a commit certificate. -/
def uncommitted : List Move :=
  [.start 1, .start 3, .start 4,
   .event 1 (.proposal (proposal 1 (some (cert 0)))), .event 4 (.proposal (proposal 1 (some (cert 0)))),
   .event 1 (.proposal (proposal 2 none)), .event 4 (.proposal (proposal 2 none)),
   .event 1 (.proposal (proposal 3 (some (cert 2)))), .event 4 (.proposal (proposal 3 none))]

/-- No leader of round 4 is known, and the certificate of block 2 makes one known. -/
def elects (c : Core) : Bool :=
  match BlockTree.processQC defaultHistory 8 c.ledger c.tree (some (cert 2)) with
  | .error _      => false
  | .ok (l, _, _) =>
    match c.leaders.updateLeaders net.crypto (net.config 4) 8 l c.pacemaker.currentRound (cert 2) with
    | .error _     => false
    | .ok leaders' => (c.leaders.reputationLeaders.lookup 4).isNone && (leaders'.reputationLeaders.lookup 4).isSome

end Chain

/-- Block 3 comes to replica 4 again, now with the certificate of block 2 as its commit certificate: a leader is elected
for round 4. -/
theorem chain_electable : ∃ σ c l leaders' id, Chain.net.Reached Net.AnyEvent σ ∧
    Chain.net.Within Net.AnyEvent σ 4 Chain.env (.proposal (Chain.proposal 3 (some (Chain.cert 2)))) c ∧
    Chain.net.Updating 4 Chain.env (.proposal (Chain.proposal 3 (some (Chain.cert 2)))) c l (Chain.cert 2) ∧
    c.leaders.updateLeaders Chain.net.crypto (Chain.net.config 4) 8 l c.pacemaker.currentRound (Chain.cert 2) =
      .ok leaders' ∧
    c.leaders.reputationLeaders.lookup 4 = none ∧ leaders'.reputationLeaders.lookup 4 = some id ∧
    Electable Chain.net.toGroup (Chain.net.config 4) l (Chain.cert 2) id ∧ c.leaders.getLeader 5 ∈ [1, 2, 3, 4] := by
  have hplay : (Chain.book [(1, digest 16), (4, digest 16)]).plays 1 2 Chain.env Chain.uncommitted
      (.event 4 (.proposal (Chain.proposal 3 (some (Chain.cert 2)))) ::
        .event 1 (.proposal (Chain.proposal 4 none)) :: Chain.closing) (fun σ => σ.check 4 Chain.elects)
      (fun _ => true) = true := by decide +kernel
  obtain ⟨σ, hσ, htest⟩ := (Book.reached hplay).1 Net.AnyEvent (fun _ _ _ _ => trivial)
  obtain ⟨c, hc, helects⟩ := Sys.running_of_check htest
  have hwithin : Chain.net.Within Net.AnyEvent σ 4 Chain.env (.proposal (Chain.proposal 3 (some (Chain.cert 2)))) c :=
    ⟨by decide, c, [], hc, by decide +kernel, trivial, .refl c, fun _ hx => by cases hx⟩
  rw [Chain.elects] at helects
  split at helects
  · cases helects
  rename_i l t bs hproc
  split at helects
  · cases helects
  rename_i leaders' hle
  rw [Bool.and_eq_true, Option.isNone_iff_eq_none, Option.isSome_iff_exists] at helects
  obtain ⟨hnone, id, hid⟩ := helects
  have hu : Chain.net.Updating 4 Chain.env (.proposal (Chain.proposal 3 (some (Chain.cert 2)))) c l (Chain.cert 2) :=
    .cert t bs (by decide) hproc
  obtain ⟨hleader, hwritten⟩ := only_electable hσ hwithin
  rcases hwritten l _ hu c.leaders leaders' hle 4 id hid with hold | ⟨-, helectable⟩
  · rw [hnone] at hold
    cases hold
  · exact ⟨σ, c, l, leaders', id, hσ, hwithin, hu, hle, hnone, hid, helectable, hleader 5⟩

end Diem

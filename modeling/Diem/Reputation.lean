import Diem.Retention
/-!
# Reputation — what an election reads

The walk of `electReputationLeader` goes from a certificate to its `parent_id`, and the certificate a block carries is
for the block's parent, so a turn takes it two blocks down.  `survey` is what it gathers from the blocks it is led to,
and `Leads` says which those are: every second block of the committed chain from the frontier down, as far as it is
kept. `trail` are the blocks it does read before it stops, and a bounded ledger changes the walk exactly if one of them
is forgotten.
-/
namespace Diem

/-- Every second element, from the first on. -/
def alternate {α : Type} : List α → List α
  | []           => []
  | [a]          => [a]
  | a :: _ :: as => a :: alternate as

theorem length_alternate_le {α : Type} : ∀ as : List α, (alternate as).length ≤ as.length
  | []           => Nat.le_refl _
  | [_]          => Nat.le_refl _
  | a :: b :: as => by
    have h := length_alternate_le as
    rw [alternate, List.length_cons, List.length_cons, List.length_cons]
    omega

theorem alternate_take_cons {α : Type} (a b : α) (as : List α) {m : Nat} (hm : 1 ≤ m) :
    alternate ((a :: b :: as).take m) = a :: alternate (as.take (m - 2)) := by
  match m, hm with
  | 1,     _ => rfl
  | m + 2, _ => rfl

/-- The first `n` are within the first `2n - 1`. -/
theorem alternate_take {α : Type} : ∀ (n m : Nat) (as : List α), 2 * n ≤ m + 1 →
    (alternate (as.take m)).take n = (alternate as).take n
  | 0,     m, as,           _  => by rw [List.take_zero, List.take_zero]
  | n + 1, m, [],           _  => by rw [List.take_nil]
  | n + 1, m, [a],          hm => by
    have hall : [a].take m = [a] := List.take_of_length_le (by rw [List.length_singleton]; omega)
    rw [hall]
  | n + 1, m, a :: b :: as, hm => by
    rw [alternate_take_cons a b as (by omega), alternate, List.take_succ_cons, List.take_succ_cons]
    by_cases hn : n = 0
    · rw [hn, List.take_zero, List.take_zero]
    · rw [alternate_take n (m - 2) as (by omega)]

theorem mem_of_mem_alternate {α : Type} {a : α} : ∀ {as : List α}, a ∈ alternate as → a ∈ as
  | [],          h => h
  | [_],         h => h
  | _ :: _ :: _, h => (List.mem_cons.1 h).elim (fun h => h ▸ List.mem_cons_self)
      (fun h => List.mem_cons_of_mem _ (List.mem_cons_of_mem _ (mem_of_mem_alternate h)))

namespace LeaderElection

variable {window exclude : Int}

/-- One author more, unless there are enough. -/
def gather (exclude : Int) (excluded : List UInt32) (b : Block) : List UInt32 :=
  if (excluded.length : Int) < exclude then excluded.insert b.author else excluded

/-- **What the walk gathers**, led from `current` to the blocks one after the other. -/
def survey (window exclude : Int) : Nat → QuorumCert → Walk → List Block → Walk
  | _, _,       w, []      => w
  | i, current, w, b :: ds =>
    if (i : Int) < window ∨ (w.excluded.length : Int) < exclude then
      match b.qc with
      | none    => w.visit window exclude i current b
      | some qc => survey window exclude (i + 1) qc (w.visit window exclude i current b) ds
    else w

/-- **Where the ledger leads the walk**: to these blocks, and no further. -/
def Leads (l : MemLedger) : QuorumCert → List Block → Prop
  | current, []      => l.committedBlock current.voteInfo.parentId = none
  | current, b :: ds => l.committedBlock current.voteInfo.parentId = some b ∧ ∃ qc, b.qc = some qc ∧ Leads l qc ds

theorem walk_eq_survey {l : MemLedger} : ∀ {ds : List Block} {n i : Nat} {current : QuorumCert} {w : Walk},
    Leads l current ds → ds.length ≤ n →
    walk window exclude l n i current w = .ok (survey window exclude i current w ds)
  | [],      n, i, current, w, h, _  => by
    rw [walk, survey]
    split
    · rw [show l.committedBlock current.voteInfo.parentId = none from h]
    · rfl
  | b :: ds, n, i, current, w, h, hn => by
    obtain ⟨hb, qc, hqc, hlead⟩ := h
    obtain ⟨m, rfl⟩ : ∃ m, n = m + 1 := Nat.exists_eq_succ_of_ne_zero (by rw [List.length_cons] at hn; omega)
    rw [walk, survey]
    split
    · simp only [hb, hqc]
      exact walk_eq_survey hlead (by rw [List.length_cons] at hn; omega)
    · rfl

/-- **The blocks the walk reads**, one a turn. -/
def trail (window exclude : Int) (l : MemLedger) : Nat → Nat → QuorumCert → Walk → List Block
  | n, i, current, w =>
    if (i : Int) < window ∨ (w.excluded.length : Int) < exclude then
      match l.committedBlock current.voteInfo.parentId with
      | none       => []
      | some block =>
        block :: match block.qc with
          | none    => []
          | some qc =>
            match n with
            | 0     => []
            | n + 1 => trail window exclude l n (i + 1) qc (w.visit window exclude i current block)
    else []

/-- A walk that ends has gathered what the blocks it read show. -/
theorem survey_trail {l : MemLedger} : ∀ {n i : Nat} {current : QuorumCert} {w w' : Walk},
    walk window exclude l n i current w = .ok w' →
    survey window exclude i current w (trail window exclude l n i current w) = w'
  | n, i, current, w, w', h => by
    rw [walk] at h
    rw [trail]
    by_cases hgo : (i : Int) < window ∨ (w.excluded.length : Int) < exclude
    · rw [if_pos hgo] at h ⊢
      cases hb : l.committedBlock current.voteInfo.parentId with
      | none =>
        rw [hb] at h
        exact Except.ok.inj h
      | some b =>
        simp only [hb] at h
        dsimp only
        rw [survey, if_pos hgo]
        cases hqc : b.qc with
        | none =>
          rw [hqc] at h
          exact Except.ok.inj h
        | some qc =>
          rw [hqc] at h
          cases n with
          | zero => cases h
          | succ n => exact survey_trail h
    · rw [if_neg hgo] at h ⊢
      exact Except.ok.inj h

theorem mem_trail {l : MemLedger} : ∀ {n i : Nat} {current : QuorumCert} {w : Walk} {b : Block},
    b ∈ trail window exclude l n i current w → ∃ id, l.committedBlock id = some b
  | n, i, current, w, b, h => by
    rw [trail] at h
    split at h
    · split at h
      · cases h
      · rename_i c hc
        rcases List.mem_cons.1 h with rfl | h
        · exact ⟨_, hc⟩
        · split at h
          · cases h
          · match n with
            | 0     => cases h
            | n + 1 => exact mem_trail h
    · cases h

/-- **A walk none of whose blocks is forgotten** goes the same way on the ledger that forgets: what that one has, the
other has too, under the same ids. -/
theorem walk_of_kept {l L : MemLedger} (hsub : ∀ id b, l.committedBlock id = some b → L.committedBlock id = some b)
    (hids : ∀ id b, L.committedBlock id = some b → b.id = id) : ∀ {n i : Nat} {current : QuorumCert} {w : Walk},
    (∀ b ∈ trail window exclude L n i current w, l.committedBlock b.id = some b) →
    walk window exclude l n i current w = walk window exclude L n i current w ∧
      trail window exclude l n i current w = trail window exclude L n i current w
  | n, i, current, w, hkept => by
    rw [walk, walk, trail, trail]
    rw [trail] at hkept
    by_cases hgo : (i : Int) < window ∨ (w.excluded.length : Int) < exclude
    · rw [if_pos hgo] at hkept
      rw [if_pos hgo, if_pos hgo, if_pos hgo, if_pos hgo]
      cases hL : L.committedBlock current.voteInfo.parentId with
      | none =>
        have hl : l.committedBlock current.voteInfo.parentId = none := by
          cases hl : l.committedBlock current.voteInfo.parentId with
          | none => rfl
          | some b =>
            rw [hsub _ b hl] at hL
            cases hL
        rw [hl]
        exact ⟨rfl, rfl⟩
      | some b =>
        simp only [hL] at hkept
        have hl : l.committedBlock current.voteInfo.parentId = some b := by
          rw [← hids _ b hL]
          exact hkept b List.mem_cons_self
        rw [hl]
        dsimp only
        cases hqc : b.qc with
        | none => exact ⟨rfl, rfl⟩
        | some qc =>
          simp only [hqc] at hkept
          cases n with
          | zero => exact ⟨rfl, rfl⟩
          | succ n =>
            obtain ⟨hwalk, htrail⟩ := walk_of_kept hsub hids (fun c hc => hkept c (List.mem_cons_of_mem _ hc))
            exact ⟨hwalk, congrArg (b :: ·) htrail⟩
    · rw [if_neg hgo, if_neg hgo, if_neg hgo, if_neg hgo]
      exact ⟨rfl, rfl⟩

/-- A walk that ends on the whole chain ends on what is kept of it. -/
theorem walk_ends_of_sub {l L : MemLedger}
    (hsub : ∀ id b, l.committedBlock id = some b → L.committedBlock id = some b) :
    ∀ {n i : Nat} {current : QuorumCert} {w w' : Walk}, walk window exclude L n i current w = .ok w' →
    ∃ w'', walk window exclude l n i current w = .ok w''
  | n, i, current, w, w', h => by
    rcases walk_turn window exclude l n i current w with hend | ⟨b, qc, hb, hqc, hnext⟩
    · exact hend
    · rw [walk] at h
      by_cases hgo : (i : Int) < window ∨ (w.excluded.length : Int) < exclude
      · simp only [if_pos hgo, hsub _ b hb, hqc] at h
        cases n with
        | zero => cases h
        | succ n =>
          rw [hnext n rfl]
          exact walk_ends_of_sub hsub h
      · exact ⟨w, by rw [walk, if_neg hgo]⟩

/-- Where the ledger leads the walk, the walk may stop early. -/
theorem trail_leads {l : MemLedger} : ∀ {ds : List Block} {n i : Nat} {current : QuorumCert} {w : Walk},
    Leads l current ds → trail window exclude l n i current w <+: ds
  | [],      n, i, current, w, h => by
    rw [trail, show l.committedBlock current.voteInfo.parentId = none from h, ite_self]
  | b :: ds, n, i, current, w, h => by
    obtain ⟨hb, qc, hqc, hlead⟩ := h
    rw [trail]
    split
    · simp only [hb, hqc]
      refine List.cons_prefix_cons.2 ⟨rfl, ?_⟩
      cases n with
      | zero => exact List.nil_prefix
      | succ n => exact trail_leads hlead
    · exact List.nil_prefix

/-- Once there are turns and authors enough, nothing more is read. -/
theorem trail_take {l : MemLedger} : ∀ {k n i : Nat} {ds : List Block} {current : QuorumCert} {w : Walk},
    Leads l current ds → window ≤ ((i + k : Nat) : Int) →
    exclude ≤ (((ds.take k).foldl (gather exclude) w.excluded).length : Int) →
    trail window exclude l n i current w <+: ds.take k
  | 0,     n, i, ds,      current, w, _, hw, hx => by
    rw [List.take_zero, List.foldl_nil] at hx
    rw [trail, if_neg (by omega)]
    exact List.nil_prefix
  | k + 1, n, i, [],      current, w, h, _,  _  => by
    rw [List.take_nil]
    exact trail_leads h
  | k + 1, n, i, b :: ds, current, w, h, hw, hx => by
    obtain ⟨hb, qc, hqc, hlead⟩ := h
    rw [List.take_succ_cons] at hx ⊢
    rw [trail]
    split
    · simp only [hb, hqc]
      refine List.cons_prefix_cons.2 ⟨rfl, ?_⟩
      cases n with
      | zero => exact List.nil_prefix
      | succ n => exact trail_take hlead (by omega) hx
    · exact List.nil_prefix

theorem length_le_gather (exclude : Int) : ∀ (bs : List Block) (ex : List UInt32),
    ex.length ≤ (bs.foldl (gather exclude) ex).length
  | [],      _  => Nat.le_refl _
  | b :: bs, ex => by
    refine Nat.le_trans ?_ (length_le_gather exclude bs (gather exclude ex b))
    rw [gather]
    split
    · exact List.length_le_length_insert
    · exact Nat.le_refl _

/-- The walk has authors enough, or has them all. -/
theorem gather_cases (exclude : Int) : ∀ (bs : List Block) (ex : List UInt32),
    exclude ≤ ((bs.foldl (gather exclude) ex).length : Int) ∨
      ∀ a, a ∈ ex ∨ a ∈ bs.map Block.author → a ∈ bs.foldl (gather exclude) ex
  | [],      ex => .inr (fun a ha => ha.resolve_right (by simp))
  | b :: bs, ex => by
    by_cases hlt : (ex.length : Int) < exclude
    · refine (gather_cases exclude bs (gather exclude ex b)).imp_right (fun h a ha => h a ?_)
      rw [gather, if_pos hlt, List.mem_insert_iff]
      rcases ha with ha | ha
      · exact .inl (.inr ha)
      · exact (List.mem_cons.1 ha).imp_left .inl
    · refine .inl ?_
      have hle := length_le_gather exclude (b :: bs) ex
      omega

theorem le_gather {bs : List Block} (h : exclude ≤ ((bs.map Block.author).dedup.length : Int)) :
    exclude ≤ ((bs.foldl (gather exclude) []).length : Int) := by
  rcases gather_cases exclude bs [] with hle | hall
  · exact hle
  · have hsub : (bs.map Block.author).dedup ⊆ bs.foldl (gather exclude) [] :=
      fun a ha => hall a (.inr (List.mem_dedup.1 ha))
    have hle := (List.subperm_of_subset (List.nodup_dedup _) hsub).length_le
    omega

/-! ## Down the committed chain -/

/-- **Certificates that tell the truth about the chain**: each block's names the parent of the block below it. -/
def Truthful (gs : List Block) : Prop :=
  gs.IsChain (fun p b => ∃ q, b.qc = some q ∧ q.voteInfo.parentId = parentID p)

/-- `current` points to the first of the blocks; past the last there is nothing. -/
def Points (l : MemLedger) (current : QuorumCert) : List Block → Prop
  | []     => l.committedBlock current.voteInfo.parentId = none
  | b :: _ => current.voteInfo.parentId = b.id

/-- Down a chain whose first `m` blocks are kept, the walk is led to every second of them. -/
theorem leads_down {l : MemLedger} {g : Block} (hg : ∃ q, g.qc = some q ∧ l.committedBlock q.voteInfo.parentId = none)
    (hroot : l.committedBlock (parentID g) = none) : ∀ (ds : List Block) (m : Nat) (current : QuorumCert),
    ds.IsChain (fun b p => parentID b = p.id ∧ ∃ q, b.qc = some q ∧ q.voteInfo.parentId = parentID p) →
    (∀ d ∈ ds.getLast?, d = g) → Points l current ds → (∀ d ∈ ds.take m, l.committedBlock d.id = some d) →
    (∀ d ∈ ds.drop m, l.committedBlock d.id = none) → Leads l current (alternate (ds.take m))
  | [],              m,     current, _,      _,     hp, _,  _  => by
    rw [List.take_nil]
    exact hp
  | b :: ds,         0,     current, _,      _,     hp, _,  hd => by
    rw [List.take_zero]
    have hb := hd b (by rw [List.drop_zero]; exact List.mem_cons_self)
    rw [← hp] at hb
    exact hb
  | [b],             m + 1, current, _,      hlast, hp, hk, _  => by
    have hb := hk b (by rw [List.take_succ_cons]; exact List.mem_cons_self)
    rw [← hp] at hb
    rw [← hlast b rfl] at hg
    obtain ⟨q, hq, hnone⟩ := hg
    rw [List.take_succ_cons, List.take_nil]
    exact ⟨hb, q, hq, hnone⟩
  | b :: p :: ds,    m + 1, current, hchain, hlast, hp, hk, hd => by
    obtain ⟨⟨-, q, hq, hqp⟩, hchain⟩ := List.isChain_cons_cons.1 hchain
    have hb := hk b (by rw [List.take_succ_cons]; exact List.mem_cons_self)
    rw [← hp] at hb
    rw [alternate_take_cons b p ds (Nat.succ_pos m)]
    refine ⟨hb, q, hq, leads_down hg hroot ds (m + 1 - 2) q hchain.of_cons (fun d hdl => ?_) ?_ (fun d hdm => hk d ?_)
      (fun d hdm => hd d ?_)⟩
    · refine hlast d ?_
      rw [List.getLast?_cons, List.getLast?_cons, hdl]
      rfl
    · cases ds with
      | nil =>
        rw [hlast p rfl] at hqp
        rw [Points, hqp]
        exact hroot
      | cons c ds => exact hqp.trans (List.isChain_cons_cons.1 hchain).1.1
    · match m with
      | 0     => cases hdm
      | m + 1 => exact List.mem_cons_of_mem _ (List.mem_cons_of_mem _ hdm)
    · match m with
      | 0     => exact List.mem_cons_of_mem _ hdm
      | m + 1 => exact hdm

/-- **Where an archive leads the walk**: from its frontier down to every second block that is kept. -/
theorem leads_archive {G : Group} {history : Nat} {l : MemLedger} {bs : List Block} (h : Archive G history l bs)
    (hpos : 1 ≤ history) (htrue : Truthful (genesisBlock G.crypto :: bs)) {qc : QuorumCert}
    (hqc : qc.voteInfo.parentId = l.commitID) :
    Leads l qc (alternate ((genesisBlock G.crypto :: bs).reverse.take history)) := by
  have hzero : l.committedBlock zeroHash = none := by
    cases hc : l.committedBlock zeroHash with
    | none => rfl
    | some c =>
      obtain ⟨hcg, hcid⟩ := h.retains.back _ _ hc
      obtain ⟨b, hb, hbid⟩ := Spine.isBlock_of_passed h.line.forall_mem (List.mem_map_of_mem hcg)
      exact absurd (hbid.trans hcid) hb.id_ne_zeroHash
  refine leads_down (g := genesisBlock G.crypto) ⟨genesisSeedQC, rfl, hzero⟩ hzero _ history qc ?_ ?_ ?_ ?_ ?_
  · rw [List.isChain_reverse, List.isChain_iff_getElem]
    have hline := List.isChain_iff_getElem.1 (h.line.isChain rfl)
    exact fun i hi => ⟨hline i hi, List.isChain_iff_getElem.1 htrue i hi⟩
  · rw [List.getLast?_reverse]
    exact fun d hd => (Option.some.inj hd).symm
  · have hlast := h.line.getLast?_passed
    rw [passed, show (genesisBlock G.crypto).id :: bs.map Block.id =
      (genesisBlock G.crypto :: bs).map Block.id from rfl,
      List.getLast?_map, ← List.head?_reverse] at hlast
    cases hds : (genesisBlock G.crypto :: bs).reverse with
    | nil => simp at hds
    | cons d ds =>
      rw [hds] at hlast
      exact hqc.trans (Option.some.inj hlast).symm
  · intro d hd
    rw [List.take_reverse, List.mem_reverse] at hd
    exact (h.retains.lookup_iff hpos d).2 hd
  · intro d hd
    rw [List.drop_reverse, List.mem_reverse] at hd
    exact h.retains.lookup_none hpos h.once hd

/-- The walk reads the ledger through `committedBlock` alone. -/
theorem walk_congr {l L : MemLedger} (h : ∀ id, L.committedBlock id = l.committedBlock id) :
    ∀ (n i : Nat) (current : QuorumCert) (w : Walk),
      walk window exclude L n i current w = walk window exclude l n i current w
  | n, i, current, w => by
    rw [walk, walk, h]
    split
    · split
      · rfl
      · rename_i b _
        cases hqc : b.qc with
        | none => rfl
        | some qc =>
          cases n with
          | zero => rfl
          | succ n => exact walk_congr h n _ _ _
    · rfl

theorem electReputationLeader_ok {cr : Crypto} {cfg : Config} {steps : Nat} {l : MemLedger} {qc : QuorumCert} {w : Walk}
    (h : walk cfg.window cfg.exclude l steps 0 qc ⟨[], []⟩ = .ok w) :
    ∃ id, electReputationLeader cr cfg steps l qc = .ok id := by
  rw [electReputationLeader, h]
  exact ⟨_, rfl⟩

theorem electReputationLeader_congr {cr : Crypto} {cfg : Config} {steps : Nat} {l L : MemLedger} {qc : QuorumCert}
    (h : walk cfg.window cfg.exclude l steps 0 qc ⟨[], []⟩ = walk cfg.window cfg.exclude L steps 0 qc ⟨[], []⟩) :
    electReputationLeader cr cfg steps l qc = electReputationLeader cr cfg steps L qc := by
  rw [electReputationLeader, electReputationLeader, h]

end LeaderElection

/-- What the ledger that forgets still has, the one that forgets nothing has too. -/
theorem Archive.committedBlock_whole {G : Group} {history unlimited : Nat} {l L : MemLedger} {out : List Block}
    (h : Archive G history l out) (H : Archive G unlimited L out) (hunlimited : out.length < unlimited)
    {id : Bytes} {b : Block} (hb : l.committedBlock id = some b) : L.committedBlock id = some b :=
  (H.retains.lookup_whole (by omega) hunlimited id b).2 (h.retains.back id b hb)

/-- **Enough is kept of the chain `gs`**: every second block there is, from the last down; or so many of them that there
are turns and authors enough among the first `n`. -/
def LeaderElection.Suffices (window exclude : Int) (history : Nat) (gs : List Block) : Prop :=
  alternate (gs.reverse.take history) = alternate gs.reverse ∨
    ∃ n : Nat, window ≤ n ∧ 2 * n ≤ history + 1 ∧
      exclude ≤ ((((alternate gs.reverse).take n).map Block.author).dedup.length : Int)

open LeaderElection in
/-- On a chain whose certificates tell the truth and of which enough is kept, the walk reads no forgotten block. -/
theorem Archive.trail_kept {G : Group} {history unlimited : Nat} {l L : MemLedger} {out : List Block}
    (h : Archive G history l out) (H : Archive G unlimited L out) (hunlimited : out.length < unlimited)
    (htrue : Truthful (genesisBlock G.crypto :: out)) {qc : QuorumCert} (hqc : qc.voteInfo.parentId = L.commitID)
    {window exclude : Int} {steps : Nat} (henough : Suffices window exclude history (genesisBlock G.crypto :: out)) :
    ∀ b ∈ trail window exclude L steps 0 qc ⟨[], []⟩, l.committedBlock b.id = some b := by
  have hall : (genesisBlock G.crypto :: out).reverse.take unlimited = (genesisBlock G.crypto :: out).reverse :=
    List.take_of_length_le (by rw [List.length_reverse, List.length_cons]; omega)
  have hlead := leads_archive H (by omega) htrue hqc
  rw [hall] at hlead
  have hread : ∀ b ∈ trail window exclude L steps 0 qc ⟨[], []⟩,
      b ∈ alternate ((genesisBlock G.crypto :: out).reverse.take history) := by
    intro b hb
    rcases henough with heq | ⟨n, hwindow, htwice, hexclude⟩
    · rw [heq]
      exact (trail_leads hlead).subset hb
    · have hfirst : trail window exclude L steps 0 qc ⟨[], []⟩ <+:
        (alternate (genesisBlock G.crypto :: out).reverse).take n :=
        trail_take hlead (by rwa [Nat.zero_add]) (le_gather hexclude)
      rw [← alternate_take n history _ htwice] at hfirst
      exact List.mem_of_mem_take (hfirst.subset hb)
  intro b hb
  have hmem := mem_of_mem_alternate (hread b hb)
  have hpos : 1 ≤ history := by
    cases history with
    | zero => cases hmem
    | succ history => exact Nat.succ_pos history
  rw [List.take_reverse, List.mem_reverse] at hmem
  exact (h.retains.lookup_iff hpos b).2 hmem

open LeaderElection in
/-- **Retention and elections**: beside a bounded ledger stands the one that the same calls leave when nothing is ever
forgotten.  A walk takes the same turns on both exactly if none of the blocks it reads on the whole chain is forgotten
on the bounded one, and then both elect the same; so it is while nothing at all is forgotten, and if the certificates of
the chain tell the truth and enough of it is kept.  Whatever is kept, an election on truthful certificates ends. -/
theorem retention_keeps_election {G : Group} {execute : Bytes → Payload → Bytes} {xs : List MemLedger.Call}
    (hblocks : ∀ b, .speculate b ∈ xs → G.IsBlock b) (cfg : Config) {fuel : Nat} {l : MemLedger} {out : List Block}
    (hl : (newMemLedger G.crypto).calls execute cfg.history fuel xs = .ok (l, out)) {unlimited : Nat}
    (hunlimited : out.length < unlimited) :
    ∃ L, (newMemLedger G.crypto).calls execute unlimited fuel xs = .ok (L, out) ∧ L.commitID = l.commitID ∧
      ∀ (qc : QuorumCert) (steps : Nat),
        (trail cfg.window cfg.exclude l steps 0 qc ⟨[], []⟩ = trail cfg.window cfg.exclude L steps 0 qc ⟨[], []⟩ ↔
          ∀ b ∈ trail cfg.window cfg.exclude L steps 0 qc ⟨[], []⟩, l.committedBlock b.id = some b) ∧
        ((∀ b ∈ trail cfg.window cfg.exclude L steps 0 qc ⟨[], []⟩, l.committedBlock b.id = some b) →
          electReputationLeader G.crypto cfg steps l qc = electReputationLeader G.crypto cfg steps L qc) ∧
        (out.length < cfg.history → ∀ b ∈ trail cfg.window cfg.exclude L steps 0 qc ⟨[], []⟩,
          l.committedBlock b.id = some b) ∧
        (Truthful (genesisBlock G.crypto :: out) → qc.voteInfo.parentId = l.commitID →
          (Suffices cfg.window cfg.exclude cfg.history (genesisBlock G.crypto :: out) →
            electReputationLeader G.crypto cfg steps l qc = electReputationLeader G.crypto cfg steps L qc) ∧
          (out.length < steps → ∃ id, electReputationLeader G.crypto cfg steps l qc = .ok id)) := by
  obtain ⟨L, hL, halike⟩ := (MemLedger.Alike.refl _).calls unlimited xs hl
  have hbounded : Archive G cfg.history l out := (Archive.init G cfg.history).calls xs hblocks hl
  have hwhole : Archive G unlimited L out := (Archive.init G unlimited).calls xs hblocks hL
  have hsub : ∀ id b, l.committedBlock id = some b → L.committedBlock id = some b :=
    fun _ _ hb => hbounded.committedBlock_whole hwhole hunlimited hb
  have hids : ∀ id b, L.committedBlock id = some b → b.id = id := fun id b hb => (hwhole.retains.back id b hb).2
  refine ⟨L, hL, halike.commitID, fun qc steps => ⟨⟨fun hsame b hb => ?_, fun hkept => ?_⟩, fun hkept => ?_,
    fun hall b hb => ?_, fun htrue hqc => ⟨fun henough => ?_, fun hsteps => ?_⟩⟩⟩
  · -- what the bounded walk reads, the bounded ledger has
    rw [← hsame] at hb
    obtain ⟨id, hid⟩ := mem_trail hb
    rw [hids id b (hsub id b hid)]
    exact hid
  · exact (walk_of_kept hsub hids hkept).2
  · exact electReputationLeader_congr (walk_of_kept hsub hids hkept).1
  · obtain ⟨id, hid⟩ := mem_trail hb
    rw [hids id b hid]
    exact hwhole.committedBlock_whole hbounded hall hid
  · refine electReputationLeader_congr (walk_of_kept hsub hids ?_).1
    exact hbounded.trail_kept hwhole hunlimited htrue (hqc.trans halike.commitID.symm) henough
  · have hlead := leads_archive hwhole (by omega) htrue (hqc.trans halike.commitID.symm)
    have hlen := length_alternate_le ((genesisBlock G.crypto :: out).reverse.take unlimited)
    rw [List.length_take, List.length_reverse, List.length_cons] at hlen
    have hends : walk cfg.window cfg.exclude L steps 0 qc ⟨[], []⟩ = _ := walk_eq_survey hlead (by omega)
    obtain ⟨w, hw⟩ := walk_ends_of_sub hsub hends
    exact electReputationLeader_ok hw

namespace Chain

/-- The first `n` blocks come, and the last of them is committed. -/
def grow (n : Nat) : List MemLedger.Call :=
  (List.range' 1 n).map (fun r => .speculate (block r)) ++ [.commit (block n).id]

theorem mem_grow {n : Nat} {b : Block} (h : .speculate b ∈ grow n) : ∃ r ∈ List.range' 1 n, block r = b := by
  rw [grow, List.mem_append, List.mem_map] at h
  obtain ⟨r, hr, heq⟩ := h.resolve_right (by simp)
  exact ⟨r, hr, MemLedger.Call.speculate.inj heq⟩

/-- The book of a chain of ten blocks. -/
def longer : Book :=
  { book [] with
    strings := blockBytes 0 0 default (some genesisSeedQC) :: executeBytes zeroHash default :: qcSigsBytes sigs ::
      (List.range' 1 10).flatMap (fun r => [(block r).bytes, voteInfoBytes (info r), ledgerCommitBytes (commit r)])
    signed  := (1, digest 4) ::
      (List.range' 1 10).flatMap (fun r => [(1, digest (3 * r + 3)), (4, digest (3 * r + 3))])
    fits    := by decide
    genesis := List.mem_cons_self }

abbrev longNet : Net := longer.net 1 2

theorem isBlock_grow {n : Nat} (hn : n ≤ 9) {b : Block} (h : .speculate b ∈ grow n) :
    longNet.IsBlock b ∧ longNet.verifier.verifyBlock b b.id = true := by
  have hblocks : ∀ r ∈ List.range' 1 9, longNet.IsBlock (block r) ∧
      longNet.verifier.verifyBlock (block r) (block r).id = true := by decide +kernel
  obtain ⟨r, hr, rfl⟩ := mem_grow h
  obtain ⟨hlow, hhigh⟩ := List.mem_range'_1.1 hr
  exact hblocks r (List.mem_range'_1.2 ⟨hlow, by omega⟩)

/-- One turn and three authors, and a ledger that keeps five blocks. -/
def keeping : Config := { longNet.config 1 with excludeSize := 3, history := 5 }

/-- One turn and two authors, and a ledger that keeps three blocks, as `New` asks for. -/
def forgetful : Config := { longNet.config 1 with history := 3 }

end Chain

open LeaderElection in
/-- Five blocks, and block 6's certificate: genesis is forgotten, and the walk, which looks for three authors where
there are two, reads blocks 5, 3 and 1. -/
theorem chain_retention :
    ∃ l L out, (newMemLedger Chain.longNet.crypto).calls Chain.keeping.execute Chain.keeping.history 8 (Chain.grow 5) =
        .ok (l, out) ∧
      (newMemLedger Chain.longNet.crypto).calls Chain.keeping.execute 6 8 (Chain.grow 5) = .ok (L, out) ∧
      l.committedBlock (genesisBlock Chain.longNet.crypto).id = none ∧
      trail Chain.keeping.window Chain.keeping.exclude L 8 0 (Chain.cert 6) ⟨[], []⟩ =
        [Chain.block 5, Chain.block 3, Chain.block 1] ∧
      electReputationLeader Chain.longNet.crypto Chain.keeping 8 l (Chain.cert 6) = .ok (some 4) ∧
      electReputationLeader Chain.longNet.crypto Chain.keeping 8 l (Chain.cert 6) =
        electReputationLeader Chain.longNet.crypto Chain.keeping 8 L (Chain.cert 6) := by
  have hrun : (match
        (newMemLedger Chain.longNet.crypto).calls Chain.keeping.execute Chain.keeping.history 8 (Chain.grow 5),
        (newMemLedger Chain.longNet.crypto).calls Chain.keeping.execute 6 8 (Chain.grow 5) with
      | .ok (l, out), .ok (L, _) => decide (out.length < 6) &&
          (l.committedBlock (genesisBlock Chain.longNet.crypto).id).isNone &&
          trail Chain.keeping.window Chain.keeping.exclude L 8 0 (Chain.cert 6) ⟨[], []⟩ ==
            [Chain.block 5, Chain.block 3, Chain.block 1] &&
          [Chain.block 5, Chain.block 3, Chain.block 1].all (fun b => l.committedBlock b.id == some b) &&
          decide (electReputationLeader Chain.longNet.crypto Chain.keeping 8 l (Chain.cert 6) = .ok (some 4))
      | .error _, _        => false
      | .ok _,    .error _ => false) = true := by decide +kernel
  split at hrun
  · rename_i l out L out' hl hL
    simp only [Bool.and_eq_true, beq_iff_eq, decide_eq_true_eq, Option.isNone_iff_eq_none, List.all_eq_true] at hrun
    obtain ⟨⟨⟨⟨hlen, hgone⟩, htrail⟩, hkept⟩, hfour⟩ := hrun
    obtain ⟨L', hL', -, helect⟩ := retention_keeps_election
      (fun b hb => (Chain.isBlock_grow (by decide) hb).1) Chain.keeping hl hlen
    cases hL.symm.trans hL'
    exact ⟨l, L, out, hl, hL', hgone, htrail, hfour, (helect (Chain.cert 6) 8).2.1 (by rw [htrail]; exact hkept)⟩
  · cases hrun
  · cases hrun

open LeaderElection in
/-- **The guard of `New` is too weak**: with one turn and two authors asked for it is content with three blocks.  Of
nine, the first by validator 1 and the others by 2, the walk reads every second one, and the author it is still looking
for is far below the last that is kept: it elects validator 1, whom it would exclude. -/
theorem retention_changes_election :
    (newCore Chain.longNet.crypto Chain.forgetful).isSome = true ∧
    (∀ b, .speculate b ∈ Chain.grow 9 → Chain.longNet.IsBlock b ∧ Chain.longNet.verifier.verifyBlock b b.id = true) ∧
    Chain.longNet.AcceptsQC (some (Chain.cert 10)) ∧
    ∃ l L out, (newMemLedger Chain.longNet.crypto).calls Chain.forgetful.execute Chain.forgetful.history 12
        (Chain.grow 9) = .ok (l, out) ∧
      (newMemLedger Chain.longNet.crypto).calls Chain.forgetful.execute 10 12 (Chain.grow 9) = .ok (L, out) ∧
      out.length < 10 ∧ (Chain.cert 10).voteInfo.parentId = l.commitID ∧
      electReputationLeader Chain.longNet.crypto Chain.forgetful 12 l (Chain.cert 10) = .ok (some 1) ∧
      electReputationLeader Chain.longNet.crypto Chain.forgetful 12 L (Chain.cert 10) = .ok (some 4) := by
  refine ⟨by decide, fun b hb => Chain.isBlock_grow (Nat.le_refl 9) hb, by decide +kernel, ?_⟩
  have hrun : (match (newMemLedger Chain.longNet.crypto).calls Chain.forgetful.execute Chain.forgetful.history 12
          (Chain.grow 9),
        (newMemLedger Chain.longNet.crypto).calls Chain.forgetful.execute 10 12 (Chain.grow 9) with
      | .ok (l, out), .ok (L, out') => out == out' && decide (out.length < 10) &&
          (Chain.cert 10).voteInfo.parentId == l.commitID &&
          decide (electReputationLeader Chain.longNet.crypto Chain.forgetful 12 l (Chain.cert 10) = .ok (some 1)) &&
          decide (electReputationLeader Chain.longNet.crypto Chain.forgetful 12 L (Chain.cert 10) = .ok (some 4))
      | .error _, _        => false
      | .ok _,    .error _ => false) = true := by decide +kernel
  split at hrun
  · rename_i l out L out' hl hL
    simp only [Bool.and_eq_true, beq_iff_eq, decide_eq_true_eq] at hrun
    obtain ⟨⟨⟨⟨rfl, hlen⟩, hid⟩, hone⟩, hfour⟩ := hrun
    exact ⟨l, L, out, hl, hL, hlen, hid, hone, hfour⟩
  · cases hrun
  · cases hrun

end Diem

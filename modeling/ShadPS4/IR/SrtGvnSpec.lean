import Mathlib.Data.List.Nodup
import ShadPS4.IR.SrtGvnTable

/-!
# What a value number stands for

Two values have the same number when they have the same key: the instruction with its opcode, its flags and the
keys of its operands, or the value itself where the table does not look into it.
-/

namespace ShadPS4.IR

open Function List
open Option (some.inj)

/-! ## Keys -/

inductive Key
  /-- a value that the table does not look into -/
  | leaf (v : Value)
  | node (op : Opcode) (flags : ℕ) (args : List Key)

namespace Program

variable {p : Program} {d d' x vn : ℕ} {v w : Value} {K K' : Key} {t t' t'' : SrtGvnTable}
  {names names' names'' : List Key} {ns : List ℕ} {Ks : List Key}

/-- A value that the table does not look into. -/
def IsLeaf (p : Program) : Value → Prop
  | .inst x => (p.insts x).op.mayHaveSideEffects = true ∨
      ((p.insts x).op ≠ .phi ∧ (p.insts x).op.isSource = false)
  | _ => True

inductive HasKey (p : Program) : ℕ → Value → Key → Prop
  /-- The table does not look into the value. -/
  | leaf {d : ℕ} {v w : Value} (hv : p.resolved v = some w) (hw : p.IsLeaf w) :
    HasKey p (d + 1) v (.leaf w)
  | node {d x : ℕ} {v : Value} {args : List Key} (hv : p.resolved v = some (.inst x))
    (hop : (p.insts x).op.isSource = true) (hlength : args.length = (p.insts x).numArgs)
    (hargs : ∀ i K, args[i]? = some K → HasKey p d ((p.insts x).arg i) K) :
    HasKey p (d + 1) v (.node (p.insts x).op (p.insts x).flags args)

theorem resolve_done (h : p.resolve turns v = some w) (n : ℕ) : p.resolve (n + 1) w = some w := by
  induction turns generalizing v with
  | zero => cases h
  | succ turns ih =>
    cases v with
    | inst x =>
      unfold resolve at h
      split at h
      next => exact ih h
      next hop =>
        obtain rfl := some.inj h
        exact if_neg hop
    | void =>
      obtain rfl := some.inj h
      rfl
    | imm value =>
      obtain rfl := some.inj h
      rfl

theorem resolved_resolved (h : p.resolved v = some w) : p.resolved w = some w := resolve_done h _

theorem isSource_spec {op : Opcode} (h : op.isSource = true) : op.mayHaveSideEffects = false ∧ op ≠ .phi := by
  unfold Opcode.isSource at h
  split at h
  · exact ⟨rfl, fun hphi => by cases hphi⟩
  · exact ⟨rfl, fun hphi => by cases hphi⟩
  · exact ⟨rfl, fun hphi => by cases hphi⟩
  · cases h

theorem not_isLeaf (h : (p.insts x).op.isSource = true) : ¬ p.IsLeaf (.inst x) := by
  obtain ⟨hpure, -⟩ := isSource_spec h
  rintro (heffects | ⟨-, hsource⟩)
  · rw [hpure] at heffects
    cases heffects
  · rw [h] at hsource
    cases hsource

theorem HasKey.mono (h : p.HasKey d v K) (hd : d ≤ d') : p.HasKey d' v K := by
  induction h generalizing d' with
  | leaf hv hw =>
    obtain ⟨e, rfl⟩ := Nat.exists_eq_add_of_le' (Nat.le_trans (Nat.le_add_left 1 _) hd)
    exact .leaf hv hw
  | node hv hop hlength _ ih =>
    obtain ⟨e, rfl⟩ := Nat.exists_eq_add_of_le' (Nat.le_trans (Nat.le_add_left 1 _) hd)
    exact .node hv hop hlength fun i K hK => ih i K hK (Nat.le_of_succ_le_succ hd)

theorem HasKey.of_resolved (h : p.HasKey d v K) (hv : p.resolved v = some w) : p.HasKey d w K := by
  cases h with
  | leaf hv' hw =>
    obtain rfl := some.inj (hv'.symm.trans hv)
    exact .leaf (resolved_resolved hv) hw
  | node hv' hop hlength hargs =>
    obtain rfl := some.inj (hv'.symm.trans hv)
    exact .node (resolved_resolved hv) hop hlength hargs

theorem HasKey.exists_resolved (h : p.HasKey d v K) : ∃ w, p.resolved v = some w := by
  cases h with
  | leaf hv _ => exact ⟨_, hv⟩
  | node hv _ _ _ => exact ⟨_, hv⟩

theorem HasKey.unique (h : p.HasKey d v K) (h' : p.HasKey d' v K') : K = K' := by
  induction h generalizing d' K' with
  | leaf hv hw =>
    cases h' with
    | leaf hv' hw' => rw [some.inj (hv.symm.trans hv')]
    | node hv' hop _ _ =>
      obtain rfl := some.inj (hv.symm.trans hv')
      exact absurd hw (not_isLeaf hop)
  | node hv hop hlength _ ih =>
    cases h' with
    | leaf hv' hw' =>
      obtain rfl := some.inj (hv.symm.trans hv')
      exact absurd hw' (not_isLeaf hop)
    | node hv' _ hlength' hargs' =>
      obtain rfl := Value.inst.inj (some.inj (hv.symm.trans hv'))
      congr 1
      apply ext_getElem (hlength.trans hlength'.symm)
      intro i hi hi'
      exact ih i _ (getElem?_eq_getElem hi) (hargs' i _ (getElem?_eq_getElem hi'))

/-! ## The table -/

structure Numbered (p : Program) (t : SrtGvnTable) (names : List Key) : Prop where
  length : names.length = t.next_num
  nodup : names.Nodup
  number : ∀ v vn, t.value_numbers v = some vn → ∃ d K, p.HasKey d v K ∧ names[vn]? = some K
  leaf : ∀ v vn, names[vn]? = some (.leaf v) → t.value_numbers v = some vn
  vector : ∀ op flags ns vn, t.iv_to_vn (op, flags, ns) = some vn → ∃ Ks,
    List.Forall₂ (fun n K => names[n]? = some K) ns Ks ∧ names[vn]? = some (.node op flags Ks)
  node : ∀ op flags Ks vn, names[vn]? = some (.node op flags Ks) → ∃ ns,
    List.Forall₂ (fun n K => names[n]? = some K) ns Ks ∧ t.iv_to_vn (op, flags, ns) = some vn

structure Grown (p : Program) (t : SrtGvnTable) (names : List Key) (t' : SrtGvnTable) (names' : List Key) :
    Prop where
  numbered : p.Numbered t' names'
  names : names <+: names'
  values : ∀ w n, t.value_numbers w = some n → t'.value_numbers w = some n

theorem Grown.refl (h : p.Numbered t names) : p.Grown t names t names := ⟨h, prefix_refl _, fun _ _ => id⟩

theorem Grown.trans (h : p.Grown t names t' names') (h' : p.Grown t' names' t'' names'') :
    p.Grown t names t'' names'' :=
  ⟨h'.numbered, h.names.trans h'.names, fun w n hn => h'.values w n (h.values w n hn)⟩

theorem Grown.getElem? (h : p.Grown t names t' names') (hK : names[vn]? = some K) : names'[vn]? = some K := by
  obtain ⟨more, rfl⟩ := h.names
  rw [getElem?_append_left (List.getElem?_eq_some_iff.mp hK).1]
  exact hK

theorem Grown.forall₂ (h : p.Grown t names t' names') (hK : List.Forall₂ (fun n K => names[n]? = some K) ns Ks) :
    List.Forall₂ (fun n K => names'[n]? = some K) ns Ks := hK.imp fun _ _ => h.getElem?

theorem Numbered.getElem?_inj (h : p.Numbered t names) {m n : ℕ} (hm : names[m]? = some K)
    (hn : names[n]? = some K) : m = n := by
  obtain ⟨hm, hmK⟩ := List.getElem?_eq_some_iff.mp hm
  obtain ⟨hn, hnK⟩ := List.getElem?_eq_some_iff.mp hn
  exact (List.Nodup.getElem_inj_iff h.nodup).mp (hmK.trans hnK.symm)

theorem Numbered.forall₂_inj (h : p.Numbered t names) {ms : List ℕ}
    (hm : List.Forall₂ (fun n K => names[n]? = some K) ms Ks)
    (hn : List.Forall₂ (fun n K => names[n]? = some K) ns Ks) : ms = ns := by
  induction hm generalizing ns with
  | nil => exact (forall₂_nil_right_iff.mp hn).symm
  | cons hhead _ ih =>
    obtain ⟨n, ns, hhead', htail, rfl⟩ := forall₂_cons_right_iff.mp hn
    rw [h.getElem?_inj hhead hhead', ih htail]

theorem forall₂_unique (hK : List.Forall₂ (fun n K => names[n]? = some K) ns Ks)
    (hL : List.Forall₂ (fun n K => names[n]? = some K) ns Ls) : Ks = Ls := by
  induction hK generalizing Ls with
  | nil => exact (forall₂_nil_left_iff.mp hL).symm
  | cons hhead _ ih =>
    obtain ⟨L, Ls, hhead', htail, rfl⟩ := forall₂_cons_left_iff.mp hL
    rw [some.inj (hhead.symm.trans hhead'), ih htail]

theorem getElem?_concat (h : (names ++ [K])[vn]? = some K') :
    names[vn]? = some K' ∨ (vn = names.length ∧ K' = K) := by
  rcases Nat.lt_trichotomy vn names.length with hvn | rfl | hvn
  · rw [getElem?_append_left hvn] at h
    exact .inl h
  · rw [getElem?_concat_length] at h
    exact .inr ⟨rfl, (some.inj h).symm⟩
  · rw [getElem?_eq_none (by rw [length_append, length_singleton]; exact hvn)] at h
    cases h

theorem update_values {values : Value → Option ℕ} (hnone : values v = none) (n : ℕ) (hw : values w = some n) :
    update values v (some vn) w = some n := by
  rw [update_of_ne]
  · exact hw
  · rintro rfl
    rw [hnone] at hw
    cases hw

theorem Numbered.record (h : p.Numbered t names) (hK : p.HasKey d v K) (hvn : names[vn]? = some K) :
    p.Grown t names (t.record v vn) names := by
  have hkept (w : Value) (n : ℕ) (hw : t.value_numbers w = some n) :
      update t.value_numbers v (some vn) w = some n := by
    rcases eq_or_ne w v with rfl | hne
    · obtain ⟨d', K', hK', hn⟩ := h.number w n hw
      rw [update_self, h.getElem?_inj hvn (hK'.unique hK ▸ hn)]
    · rw [update_of_ne hne]
      exact hw
  refine ⟨⟨h.length, h.nodup, fun w n hw => ?_, fun w n hw => hkept w n (h.leaf w n hw), h.vector,
    h.node⟩, prefix_refl _, hkept⟩
  change update t.value_numbers v (some vn) w = some n at hw
  rcases eq_or_ne w v with rfl | hne
  · rw [update_self] at hw
    obtain rfl := some.inj hw
    exact ⟨d, K, hK, hvn⟩
  · rw [update_of_ne hne] at hw
    exact h.number w n hw

theorem Numbered.number_next (h : p.Numbered t names) (hK : p.HasKey d v K) (w : Value) (n : ℕ)
    (hw : update t.value_numbers v (some t.next_num) w = some n) :
    ∃ d K', p.HasKey d w K' ∧ (names ++ [K])[n]? = some K' := by
  rcases eq_or_ne w v with rfl | hne
  · rw [update_self] at hw
    obtain rfl := some.inj hw
    refine ⟨d, K, hK, ?_⟩
    rw [← h.length, getElem?_concat_length]
  · rw [update_of_ne hne] at hw
    obtain ⟨d', K', hK', hn⟩ := h.number w n hw
    refine ⟨d', K', hK', ?_⟩
    rw [getElem?_append_left (List.getElem?_eq_some_iff.mp hn).1]
    exact hn

theorem forall₂_concat (hK : List.Forall₂ (fun n K => names[n]? = some K) ns Ks) :
    List.Forall₂ (fun n K'' => (names ++ [K'])[n]? = some K'') ns Ks := by
  refine hK.imp fun n K hn => ?_
  rw [getElem?_append_left (List.getElem?_eq_some_iff.mp hn).1]
  exact hn

theorem Numbered.nextLeaf (h : p.Numbered t names) (hv : p.resolved v = some v) (hleaf : p.IsLeaf v)
    (hnone : t.value_numbers v = none) : p.Grown t names (t.nextValueNumber v).2 (names ++ [.leaf v]) := by
  have hnew : Key.leaf v ∉ names := by
    intro hin
    obtain ⟨n, hn⟩ := mem_iff_getElem?.mp hin
    rw [h.leaf v n hn] at hnone
    cases hnone
  have hK : p.HasKey 1 v (.leaf v) := .leaf hv hleaf
  refine ⟨⟨?_, ?_, h.number_next hK, fun w n hw => ?_, fun op flags ns n hn => ?_,
    fun op flags Ks n hn => ?_⟩, prefix_append _ _, fun w n hw => update_values hnone n hw⟩
  · rw [length_append, length_singleton, h.length]
    rfl
  · rw [← concat_eq_append]
    exact h.nodup.concat hnew
  · rcases getElem?_concat hw with hold | ⟨rfl, heq⟩
    · exact update_values hnone n (h.leaf w n hold)
    · rw [Key.leaf.inj heq, h.length]
      exact update_self ..
  · obtain ⟨Ks, hKs, hn⟩ := h.vector op flags ns n hn
    refine ⟨Ks, forall₂_concat hKs, ?_⟩
    rw [getElem?_append_left (List.getElem?_eq_some_iff.mp hn).1]
    exact hn
  · rcases getElem?_concat hn with hold | ⟨-, heq⟩
    · obtain ⟨ns, hns, hiv⟩ := h.node op flags Ks n hold
      exact ⟨ns, forall₂_concat hns, hiv⟩
    · cases heq

theorem Numbered.nextNode (h : p.Numbered t names) {op : Opcode} {flags : ℕ}
    (hK : p.HasKey d v (.node op flags Ks)) (hns : List.Forall₂ (fun n K => names[n]? = some K) ns Ks)
    (hiv : t.iv_to_vn (op, flags, ns) = none) : p.Grown t names { (t.nextValueNumber v).2 with
      iv_to_vn := update t.iv_to_vn (op, flags, ns) (some t.next_num) }
      (names ++ [.node op flags Ks]) := by
  have hnew : Key.node op flags Ks ∉ names := by
    intro hin
    obtain ⟨n, hn⟩ := mem_iff_getElem?.mp hin
    obtain ⟨ms, hms, hfound⟩ := h.node op flags Ks n hn
    rw [h.forall₂_inj hms hns, hiv] at hfound
    cases hfound
  have hnone : t.value_numbers v = none := by
    rw [Option.eq_none_iff_forall_ne_some]
    intro n hn
    obtain ⟨d', K', hK', hn⟩ := h.number v n hn
    exact hnew (hK'.unique hK ▸ mem_of_getElem? hn)
  refine ⟨⟨?_, ?_, h.number_next hK, fun w n hw => ?_, fun op' flags' ms n hn => ?_,
    fun op' flags' Ls n hn => ?_⟩, prefix_append _ _, fun w n hw => update_values hnone n hw⟩
  · rw [length_append, length_singleton, h.length]
    rfl
  · rw [← concat_eq_append]
    exact h.nodup.concat hnew
  · rcases getElem?_concat hw with hold | ⟨-, heq⟩
    · exact update_values hnone n (h.leaf w n hold)
    · cases heq
  · change update t.iv_to_vn _ _ (op', flags', ms) = some n at hn
    rcases eq_or_ne (op', flags', ms) (op, flags, ns) with heq | hne
    · obtain ⟨rfl, rfl, rfl⟩ : op' = op ∧ flags' = flags ∧ ms = ns := by
        simpa only [Prod.mk.injEq] using heq
      rw [update_self] at hn
      obtain rfl := some.inj hn
      refine ⟨Ks, forall₂_concat hns, ?_⟩
      rw [← h.length, getElem?_concat_length]
    · rw [update_of_ne hne] at hn
      obtain ⟨Ls, hLs, hn⟩ := h.vector op' flags' ms n hn
      refine ⟨Ls, forall₂_concat hLs, ?_⟩
      rw [getElem?_append_left (List.getElem?_eq_some_iff.mp hn).1]
      exact hn
  · rcases getElem?_concat hn with hold | ⟨rfl, heq⟩
    · obtain ⟨ms, hms, hfound⟩ := h.node op' flags' Ls n hold
      refine ⟨ms, forall₂_concat hms, ?_⟩
      show update t.iv_to_vn _ _ (op', flags', ms) = some n
      rw [update_of_ne]
      · exact hfound
      · intro heq
        rw [heq, hiv] at hfound
        cases hfound
    · obtain ⟨rfl, rfl, rfl⟩ := Key.node.inj heq
      refine ⟨ns, forall₂_concat hns, ?_⟩
      rw [h.length]
      exact update_self ..

/-! ## `GetValueNumber` -/

/-- What `GetValueNumber` gives: the number of the key, which the value has from then on. -/
def Numbers (p : Program) (t : SrtGvnTable) (names : List Key) (v : Value) (K : Key)
    (r : Option (ℕ × SrtGvnTable)) : Prop :=
  ∃ vn t' names' w, r = some (vn, t') ∧ p.Grown t names t' names' ∧ names'[vn]? = some K ∧
    p.resolved v = some w ∧ t'.value_numbers w = some vn

theorem makeInstVector_spec (hnumber : ∀ i K, Ks[i]? = some K → ∀ t names, p.Numbered t names →
      p.Numbers t names (inst.arg i) K (number (inst.arg i) t))
    (ht : p.Numbered t names) (hlength : Ks.length = inst.numArgs) :
    ∃ ns t' names', makeInstVector number inst t = some ((inst.op, inst.flags, ns), t') ∧
      p.Grown t names t' names' ∧ List.Forall₂ (fun n K => names'[n]? = some K) ns Ks := by
  have hloop : ∀ n ≤ inst.numArgs, ∃ ns t' names', (range n).foldlM (fun (r : List ℕ × SrtGvnTable) i => do
        let n ← number (inst.arg i) r.2
        some (r.1 ++ [n.1], n.2)) ([], t) = some (ns, t') ∧
      p.Grown t names t' names' ∧ List.Forall₂ (fun n K => names'[n]? = some K) ns (Ks.take n) := by
    intro n
    induction n with
    | zero => exact fun _ => ⟨[], t, names, rfl, .refl ht, .nil⟩
    | succ n ih =>
      intro hn
      obtain ⟨ns, t1, names1, hfold, hgrown, hns⟩ := ih (Nat.le_of_succ_le hn)
      have hlt : n < Ks.length := by omega
      obtain ⟨vn, t2, names2, -, hvn, hgrown', hK, -, -⟩ :=
        hnumber n _ (getElem?_eq_getElem hlt) t1 names1 hgrown.numbered
      refine ⟨ns ++ [vn], t2, names2, ?_, hgrown.trans hgrown', ?_⟩
      · rw [range_succ, foldlM_append, hfold, Option.bind_eq_bind, Option.bind_some, foldlM_cons, hvn]
        rfl
      · rw [take_add_one, getElem?_eq_getElem hlt]
        exact rel_append (hgrown'.forall₂ hns) (.cons hK .nil)
  obtain ⟨ns, t', names', hfold, hgrown, hns⟩ := hloop inst.numArgs (Nat.le_refl _)
  refine ⟨ns, t', names', ?_, hgrown, ?_⟩
  · unfold makeInstVector
    rw [hfold]
    rfl
  · rw [← hlength, take_length] at hns
    exact hns

theorem computeInstValueNumber_spec {number : Value → SrtGvnTable → Option (ℕ × SrtGvnTable)}
    (hnumber : ∀ v K, p.HasKey d v K → ∀ t names, p.Numbered t names → p.Numbers t names v K (number v t))
    (hv : p.resolved (.inst x) = some (.inst x)) (hK : p.HasKey (d + 1) (.inst x) K)
    (ht : p.Numbered t names) (hnone : t.value_numbers (.inst x) = none) :
    p.Numbers t names (.inst x) K (p.computeInstValueNumber number x t) := by
  have hrecorded (t : SrtGvnTable) (vn : ℕ) : (t.record (.inst x) vn).value_numbers (.inst x) = some vn :=
    update_self ..
  have hlast (t : SrtGvnTable) (names : List Key) (ht : p.Numbered t names) (K : Key) :
      (names ++ [K])[t.next_num]? = some K := by
    rw [← ht.length, getElem?_concat_length]
  cases hK with
  | leaf hv' hleaf =>
    obtain rfl := some.inj (hv.symm.trans hv')
    have hcompute : p.computeInstValueNumber number x t = some (t.nextValueNumber (.inst x)) := by
      unfold computeInstValueNumber
      dsimp only
      rcases hleaf with heffects | ⟨hphi, hsource⟩
      · exact if_pos heffects
      · split
        next => rfl
        next =>
          refine if_neg ?_
          rw [hsource]
          exact Bool.false_ne_true
    exact ⟨_, _, _, _, hcompute, ht.nextLeaf hv hleaf hnone, hlast t names ht _, hv, hrecorded t t.next_num⟩
  | node hv' hop hlength hargs =>
    obtain rfl := Value.inst.inj (some.inj (hv.symm.trans hv'))
    obtain ⟨hpure, hphi⟩ := isSource_spec hop
    obtain ⟨ns, t1, names1, hvector, hgrown, hns⟩ :=
      makeInstVector_spec (fun i K hK => hnumber _ K (hargs i K hK)) ht hlength
    have hkey := HasKey.node hv hop hlength hargs
    have hcompute : p.computeInstValueNumber number x t =
        (t1.iv_to_vn ((p.insts x).op, (p.insts x).flags, ns)).elim
          (some (t1.next_num, { (t1.nextValueNumber (.inst x)).2 with
            iv_to_vn := update t1.iv_to_vn ((p.insts x).op, (p.insts x).flags, ns) (some t1.next_num) }))
          fun vn => some (vn, t1.record (.inst x) vn) := by
      unfold computeInstValueNumber
      dsimp only
      rw [hpure, if_neg Bool.false_ne_true, if_neg hphi, if_pos hop, hvector]
      dsimp only [Option.bind_eq_bind, Option.bind_some]
      cases t1.iv_to_vn _ <;> rfl
    cases hfound : t1.iv_to_vn ((p.insts x).op, (p.insts x).flags, ns) with
    | some vn =>
      rw [hfound] at hcompute
      obtain ⟨Ks, hKs, hvn⟩ := hgrown.numbered.vector _ _ _ _ hfound
      rw [forall₂_unique hKs hns] at hvn
      exact ⟨_, _, _, _, hcompute, hgrown.trans (hgrown.numbered.record hkey hvn), hvn, hv, hrecorded t1 vn⟩
    | none =>
      rw [hfound] at hcompute
      exact ⟨_, _, _, _, hcompute, hgrown.trans (hgrown.numbered.nextNode hkey hns hfound),
        hlast t1 names1 hgrown.numbered _, hv, hrecorded t1 t1.next_num⟩

theorem getValueNumber_spec (hK : p.HasKey calls v K) (ht : p.Numbered t names) :
    p.Numbers t names v K (p.getValueNumber calls v t) := by
  induction calls generalizing v K t names with
  | zero => cases hK
  | succ calls ih =>
    obtain ⟨w, hw⟩ := hK.exists_resolved
    have hKw := hK.of_resolved hw
    unfold getValueNumber
    rw [hw, Option.bind_eq_bind, Option.bind_some]
    cases hfound : t.value_numbers w with
    | some vn =>
      obtain ⟨d', K', hK', hvn⟩ := ht.number w vn hfound
      rw [hK'.unique hKw] at hvn
      exact ⟨vn, t, names, w, rfl, .refl ht, hvn, hw, hfound⟩
    | none =>
      have hnext (hleaf : p.IsLeaf w) (K : Key) (hK : p.HasKey (calls + 1) w K) :
          p.Numbers t names v K (some (t.nextValueNumber w)) := by
        obtain rfl := (HasKey.leaf (resolved_resolved hw) hleaf : p.HasKey 1 w _).unique hK
        refine ⟨_, _, _, w, rfl, ht.nextLeaf (resolved_resolved hw) hleaf hfound, ?_, hw, update_self ..⟩
        show (names ++ [Key.leaf w])[t.next_num]? = _
        rw [← ht.length, getElem?_concat_length]
      cases w with
      | inst x =>
        obtain ⟨vn, t', names', w', hvn, hgrown, hK', hw', hnumber⟩ := computeInstValueNumber_spec
          (fun v K hK t names ht => ih hK ht) (resolved_resolved hw) hKw ht hfound
        obtain rfl := some.inj ((resolved_resolved hw).symm.trans hw')
        exact ⟨vn, t', names', _, hvn, hgrown, hK', hw, hnumber⟩
      | void => exact hnext trivial K hKw
      | imm value => exact hnext trivial K hKw

end Program

end ShadPS4.IR

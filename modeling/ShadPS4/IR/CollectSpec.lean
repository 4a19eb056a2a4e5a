import ShadPS4.IR.ConstReads
import ShadPS4.Lib.Transition

/-!
# What the pass collects

After the loop over the instructions, each read at a known offset has the first of its number, and this one is
under the pointer that it goes through.
-/

namespace ShadPS4.IR

open Function Option

variable {b : ℕ} {all : List ℕ}

def PassInfo.First (info : PassInfo) (x : ℕ) : Prop := ∃ n, info.vn_to_inst n = some x

/-- An instruction has a number, and `o` is the first of that number. -/
def PassInfo.Numbers (info : PassInfo) (x o : ℕ) : Prop :=
  ∃ n, info.gvn_table.value_numbers (.inst x) = some n ∧ info.vn_to_inst n = some o

namespace Program

variable {p : Program} {insts rest : List ℕ} {E : Execution → Prop} {d calls x o r c L reg n : ℕ}
  {off : BitVec 32} {v : Value} {info info' : PassInfo} {names names' : List Key} {K : Key}

theorem resolved_inst (h : (p.insts x).op ≠ .identity) : p.resolved (.inst x) = some (.inst x) := if_neg h

theorem breadthFirstSearchValue_eq (hv : p.resolved v = some (.inst x))
    (hpred : pred (p.insts x).op = true) : p.breadthFirstSearchValue pred v = some x := by
  unfold breadthFirstSearchValue
  rw [hv]
  exact if_pos hpred

theorem ReadAt.unique (h : p.ReadAt r c L off) (h' : p.ReadAt r c' L' off') : c = c' ∧ L = L' ∧ off = off' := by
  obtain rfl := Value.inst.inj (some.inj (h.pointer.symm.trans h'.pointer))
  obtain rfl := Value.inst.inj (some.inj (h.low.symm.trans h'.low))
  have hoff := some.inj (h.offset.symm.trans h'.offset)
  exact ⟨rfl, rfl, Immediate.u32.inj (Value.imm.inj hoff)⟩

/-- A load: user data, or a read at a known offset. -/
def Load (p : Program) (insts : List ℕ) (x : ℕ) : Prop :=
  (∃ reg < 128, p.UserData x reg) ∨ p.ConstRead insts x

theorem Load.resolved (h : p.Load insts x) : p.resolved (.inst x) = some (.inst x) := by
  apply resolved_inst
  rcases h with ⟨reg, -, hdata⟩ | ⟨-, hop, -⟩
  · rw [hdata.op]
    exact fun heq => by cases heq
  · rw [hop]
    exact fun heq => by cases heq

theorem Load.op (h : p.Load insts x) : (p.insts x).op = .getUserData ∨ (p.insts x).op = .readConst := by
  rcases h with ⟨reg, -, hdata⟩ | ⟨-, hop, -⟩
  · exact .inl hdata.op
  · exact .inr hop

theorem HasKey.operand_key (h : p.HasKey d (.inst x) K)
    (hx : p.resolved (.inst x) = some (.inst x)) (hop : (p.insts x).op.isSource = true)
    (hi : i < (p.insts x).numArgs) (hw : p.resolved ((p.insts x).arg i) = some w) :
    ∃ K', p.HasKey d w K' ∧ K'.height < K.height := by
  cases h with
  | leaf hv hleaf =>
    obtain rfl := some.inj (hx.symm.trans hv)
    exact absurd hleaf (not_isLeaf hop)
  | node hv _ hlength hargs =>
    obtain rfl := Value.inst.inj (some.inj (hx.symm.trans hv))
    rw [← hlength] at hi
    have hK := hargs i _ (List.getElem?_eq_getElem hi)
    exact ⟨_, (hK.of_resolved hw).mono (Nat.le_succ _), Key.height_lt _ _ (List.getElem_mem hi)⟩

theorem ReadAt.low_key (h : p.ReadAt r c L off) (hK : p.HasKey d (.inst r) K) :
    ∃ K', p.HasKey d (.inst L) K' ∧ K'.height < K.height := by
  have hr : p.resolved (.inst r) = some (.inst r) := resolved_inst (by rw [h.op]; exact fun heq => by cases heq)
  have hc : p.resolved (.inst c) = some (.inst c) := resolved_inst (by rw [h.pair]; exact fun heq => by cases heq)
  have hnumArgs {y : ℕ} {op : Opcode} (hop : (p.insts y).op = op) (hphi : op ≠ .phi) :
      (p.insts y).numArgs = op.numArgs := by
    unfold Inst.numArgs
    rw [hop, if_neg hphi]
  obtain ⟨Kc, hKc, hlt⟩ := hK.operand_key hr (by rw [h.op]; rfl)
    (by rw [hnumArgs h.op (fun heq => by cases heq)]; exact Nat.zero_lt_two) h.pointer
  obtain ⟨KL, hKL, hlt'⟩ := hKc.operand_key hc (by rw [h.pair]; rfl)
    (by rw [hnumArgs h.pair (fun heq => by cases heq)]; exact Nat.zero_lt_two) h.low
  exact ⟨KL, hKL, Nat.lt_trans hlt' hlt⟩

theorem UserData.key (h : p.UserData x reg) :
    p.HasKey 2 (.inst x) (.node .getUserData (p.insts x).flags [.leaf (.imm (.scalarReg reg))]) := by
  have hx : p.resolved (.inst x) = some (.inst x) := resolved_inst (by rw [h.op]; exact fun heq => by cases heq)
  have hnumArgs : [Key.leaf (.imm (.scalarReg reg))].length = (p.insts x).numArgs := by
    unfold Inst.numArgs
    rw [h.op, if_neg fun hphi => by cases hphi]
    rfl
  have hnode : p.HasKey 2 (.inst x) (.node (p.insts x).op (p.insts x).flags [.leaf (.imm (.scalarReg reg))]) := by
    refine .node hx (by rw [h.op]; rfl) hnumArgs fun i K hK => ?_
    obtain ⟨hi, rfl⟩ := List.getElem?_eq_some_iff.mp hK
    obtain rfl : i = 0 := Nat.lt_one_iff.mp hi
    exact .leaf h.reg trivial
  rw [h.op] at hnode
  exact hnode

/-! ## Firsts -/

/-- The numbers that the pass has given stand for keys, and the first of a number has its key. -/
structure Firsts (p : Program) (insts : List ℕ) (d : ℕ) (info : PassInfo) (names : List Key) : Prop where
  table : p.Numbered info.gvn_table names
  first : ∀ n o, info.vn_to_inst n = some o → ∃ K, names[n]? = some K ∧ p.HasKey d (.inst o) K ∧ p.Load insts o

theorem Firsts.eq_of_same (h : p.Firsts insts d info names) (ho : info.First o) (ho' : info.First o')
    (hsame : p.Same (.inst o) (.inst o')) : o = o' := by
  obtain ⟨n, hn⟩ := ho
  obtain ⟨n', hn'⟩ := ho'
  obtain ⟨K, hname, hK, -⟩ := h.first n o hn
  obtain ⟨K', hname', hK', -⟩ := h.first n' o' hn'
  obtain ⟨_, _, _, hS, hS'⟩ := hsame
  have heq : K = K' := (hK.unique hS).trans (hS'.unique hK')
  subst heq
  rw [h.table.getElem?_inj hname hname', hn'] at hn
  exact (some.inj hn).symm

theorem Firsts.same (h : p.Firsts insts d info names) (hx : info.Numbers x o) : p.Same (.inst x) (.inst o) := by
  obtain ⟨n, hn, ho⟩ := hx
  obtain ⟨K, hname, hK, -⟩ := h.first n o ho
  obtain ⟨_, K', hK', hname'⟩ := h.table.number _ n hn
  obtain rfl := some.inj (hname.symm.trans hname')
  exact ⟨_, _, _, hK', hK⟩

/-- What `DeduplicateInstruction` leaves. -/
structure Deduplicated (p : Program) (insts : List ℕ) (d : ℕ) (info : PassInfo) (x o : ℕ)
    (info' : PassInfo) (names' : List Key) : Prop where
  firsts : p.Firsts insts d info' names'
  pointer_uses : info'.pointer_uses = info.pointer_uses
  srt_roots : info'.srt_roots = info.srt_roots
  numbers : info'.Numbers x o
  kept : ∀ y o', info.Numbers y o' → info'.Numbers y o'
  mono : ∀ o', info.First o' → info'.First o'
  new : ∀ o', info'.First o' → info.First o' ∨
    (o' = x ∧ ∀ o'', info.First o'' → ¬ p.Same (.inst x) (.inst o''))

theorem deduplicateInstruction_spec (h : p.Firsts insts d info names) (hx : p.Load insts x)
    (hK : p.HasKey d (.inst x) K) (hcalls : d ≤ calls) : ∃ o info' names',
      p.deduplicateInstruction calls x info = some (o, info') ∧ p.Deduplicated insts d info x o info' names' := by
  obtain ⟨n, t', names', w, hnumber, hgrown, hname, hw, hvalue⟩ :=
    getValueNumber_spec (hK.mono hcalls) h.table
  obtain rfl := some.inj (hx.resolved.symm.trans hw)
  have hfirst (n : ℕ) (o : ℕ) (ho : info.vn_to_inst n = some o) :
      ∃ K, names'[n]? = some K ∧ p.HasKey d (.inst o) K ∧ p.Load insts o := by
    obtain ⟨K, hname, hrest⟩ := h.first n o ho
    exact ⟨K, hgrown.getElem? hname, hrest⟩
  unfold deduplicateInstruction
  rw [hnumber, bind_eq_bind, bind_some]
  cases hfound : info.vn_to_inst n with
  | some o =>
    refine ⟨o, { info with gvn_table := t' }, names', rfl, ⟨hgrown.numbered, hfirst⟩, rfl, rfl,
      ⟨n, hvalue, hfound⟩, ?_, fun _ => id, fun _ => .inl⟩
    exact fun y o' ⟨n', hn', ho'⟩ => ⟨n', hgrown.values _ _ hn', ho'⟩
  | none =>
    have hkept (n' o' : ℕ) (ho' : info.vn_to_inst n' = some o') :
        update info.vn_to_inst n (some x) n' = some o' := by
      rw [update_of_ne]
      · exact ho'
      · rintro rfl
        rw [hfound] at ho'
        cases ho'
    refine ⟨x, { info with
      gvn_table := t'
      vn_to_inst := update info.vn_to_inst n (some x) }, names', rfl, ⟨hgrown.numbered, ?_⟩, rfl, rfl,
      ⟨n, hvalue, update_self ..⟩, ?_, ?_, ?_⟩
    · intro n' o ho
      change update info.vn_to_inst n (some x) n' = some o at ho
      rcases eq_or_ne n' n with rfl | hne
      · rw [update_self] at ho
        obtain rfl := some.inj ho
        exact ⟨K, hname, hK, hx⟩
      · rw [update_of_ne hne] at ho
        exact hfirst n' o ho
    · exact fun y o' ⟨n', hn', ho'⟩ => ⟨n', hgrown.values _ _ hn', hkept n' o' ho'⟩
    · exact fun o' ⟨n', ho'⟩ => ⟨n', hkept n' o' ho'⟩
    · intro o' ⟨n', ho'⟩
      change update info.vn_to_inst n (some x) n' = some o' at ho'
      rcases eq_or_ne n' n with rfl | hne
      · rw [update_self] at ho'
        refine .inr ⟨(some.inj ho').symm, fun o'' ⟨n'', ho''⟩ hsame => ?_⟩
        -- A first with the key would be the first of the number.
        obtain ⟨K'', hname'', hK'', -⟩ := hfirst n'' o'' ho''
        obtain ⟨_, _, _, hS, hS''⟩ := hsame
        obtain rfl : K = K'' := (hK.unique hS).trans (hS''.unique hK'')
        rw [hgrown.numbered.getElem?_inj hname hname'', ho''] at hfound
        cases hfound
      · rw [update_of_ne hne] at ho'
        exact .inl ⟨n', ho'⟩

/-! ## The loop over the instructions -/

/-- The pointers that were collected. -/
structure Pointing (p : Program) (insts : List ℕ) (d : ℕ) (info : PassInfo) (names : List Key) : Prop
    extends p.Firsts insts d info names where
  uses : ∀ b ul k o, info.pointer_uses b = some ul → (k, o) ∈ ul → ∃ c L off, p.ConstRead insts o ∧
    p.ReadAt o c L off ∧ k = off.toNat ∧ p.Same (.inst L) (.inst b) ∧ info.First o
  pointers : ∀ b, (info.pointer_uses b).isSome → info.First b
  roots : ∀ reg b, (reg, b) ∈ info.srt_roots ↔ p.UserData b reg ∧ (info.pointer_uses b).isSome

/-- How far the loop has come. -/
structure Collecting (p : Program) (insts : List ℕ) (d : ℕ) (rest : List ℕ) (info : PassInfo)
    (all : List ℕ) (names : List Key) : Prop extends p.Pointing insts d info names where
  subset : rest ⊆ insts
  done : ∀ o, info.First o → p.ConstRead insts o → o ∉ rest →
    ∃ b ul k, info.pointer_uses b = some ul ∧ (k, o) ∈ ul
  reads : ∀ r ∈ all, p.ConstRead insts r
  visited : ∀ r, p.ConstRead insts r → r ∉ rest → r ∈ all ∧ ∃ o, info.Numbers r o

theorem Pointing.deduplicated (h : p.Pointing insts d info names)
    (h' : p.Deduplicated insts d info x o info' names') : p.Pointing insts d info' names' where
  toFirsts := h'.firsts
  uses := fun b ul k o hul ho => by
    rw [h'.pointer_uses] at hul
    obtain ⟨c, L, off, hread, hat, hk, hsame, hfirst⟩ := h.uses b ul k o hul ho
    exact ⟨c, L, off, hread, hat, hk, hsame, h'.mono o hfirst⟩
  pointers := fun b hb => by
    rw [h'.pointer_uses] at hb
    exact h'.mono b (h.pointers b hb)
  roots := fun reg b => by
    rw [h'.pointer_uses, h'.srt_roots]
    exact h.roots reg b

theorem UserData.unique (h : p.UserData x reg) (h' : p.UserData x reg') : reg = reg' := by
  have heq := some.inj (h.reg.symm.trans h'.reg)
  exact Immediate.scalarReg.inj (Value.imm.inj heq)

theorem Firsts.userData_eq (h : p.Firsts insts d info names) (hp : p.Walkable insts E)
    (hb : info.First b) (hb' : info.First b') (hdata : p.UserData b reg) (hdata' : p.UserData b' reg) : b = b' := by
  apply h.eq_of_same hb hb'
  have hkey := hdata.key
  have hkey' := hdata'.key
  rw [hp.flags b reg hdata] at hkey
  rw [hp.flags b' reg hdata'] at hkey'
  exact ⟨_, _, _, hkey, hkey'⟩

theorem Pointing.insert (h : p.Pointing insts d info names) (hp : p.Walkable insts E)
    (hr : p.ConstRead insts r) (hat : p.ReadAt r c L off) (hfirst : info.First r) (hb : info.First b)
    (hsame : p.Same (.inst L) (.inst b)) {roots : OrdMap ℕ}
    (hroots : (∃ reg, p.UserData b reg ∧ roots = info.srt_roots.insert reg b) ∨
      ((p.insts b).op ≠ .getUserData ∧ roots = info.srt_roots)) : p.Pointing insts d { info with
      pointer_uses := update info.pointer_uses b
        (some (((info.pointer_uses b).getD .empty).insert off.toNat r))
      srt_roots := roots } names := by
  have hsome (b' : ℕ) : (update info.pointer_uses b
      (some (((info.pointer_uses b).getD .empty).insert off.toNat r)) b').isSome ↔
      b' = b ∨ (info.pointer_uses b').isSome := by
    rcases eq_or_ne b' b with rfl | hne
    · rw [update_self]
      exact iff_of_true rfl (.inl rfl)
    · rw [update_of_ne hne]
      exact (or_iff_right hne).symm
  constructor
  case toFirsts => exact ⟨h.table, h.first⟩
  case uses =>
    intro b' ul k o hul ho
    change update info.pointer_uses b _ b' = some ul at hul
    rcases eq_or_ne b' b with rfl | hne
    · rw [update_self] at hul
      obtain rfl := some.inj hul
      rcases OrdMap.mem_insert.mp ho with heq | ⟨hold, -⟩
      · obtain ⟨rfl, rfl⟩ := Prod.mk.inj heq
        exact ⟨c, L, off, hr, hat, rfl, hsame, hfirst⟩
      · cases hul' : info.pointer_uses b' with
        | none =>
          rw [hul'] at hold
          exact absurd hold OrdMap.not_mem_empty
        | some ul' =>
          rw [hul'] at hold
          exact h.uses b' ul' k o hul' hold
    · rw [update_of_ne hne] at hul
      exact h.uses b' ul k o hul ho
  case pointers =>
    intro b' hb'
    rcases (hsome b').mp hb' with rfl | hb'
    · exact hb
    · exact h.pointers b' hb'
  case roots =>
    intro reg' b'
    rw [hsome]
    rcases hroots with ⟨reg, hdata, rfl⟩ | ⟨hop, rfl⟩
    · rw [OrdMap.mem_insert, h.roots]
      constructor
      · rintro (heq | ⟨⟨hdata', hb'⟩, -⟩)
        · obtain ⟨rfl, rfl⟩ := Prod.mk.inj heq
          exact ⟨hdata, .inl rfl⟩
        · exact ⟨hdata', .inr hb'⟩
      · rintro ⟨hdata', hb'⟩
        rcases eq_or_ne b' b with rfl | hne
        · left
          rw [hdata'.unique hdata]
        · have hold := hb'.resolve_left hne
          refine .inr ⟨⟨hdata', hold⟩, fun heq => hne ?_⟩
          subst heq
          exact h.userData_eq hp (h.pointers b' hold) hb hdata' hdata
    · rw [h.roots]
      refine and_congr_right fun hdata' => ?_
      refine (or_iff_right fun heq => ?_).symm
      subst heq
      exact hop hdata'.op

section

variable (h : p.Collecting insts d (r :: rest) info all names)

include h

theorem Collecting.skip (hr : ¬ p.ConstRead insts r) : p.Collecting insts d rest info all names := by
  have hleft {y : ℕ} (hy : p.ConstRead insts y) (hrest : y ∉ rest) : y ∉ r :: rest := fun hin => by
    rcases List.mem_cons.mp hin with rfl | hin
    · exact hr hy
    · exact hrest hin
  exact {
    toPointing := h.toPointing
    subset := fun y hy => h.subset (List.mem_cons_of_mem _ hy)
    done := fun o ho hread hrest => h.done o ho hread (hleft hread hrest)
    reads := h.reads
    visited := fun y hy hrest => h.visited y hy (hleft hy hrest) }

theorem Collecting.concat (hr : p.ConstRead insts r) (y : ℕ) (hy : y ∈ all ++ [r]) : p.ConstRead insts y := by
  rcases List.mem_append.mp hy with hy | hy
  · exact h.reads y hy
  · rw [List.mem_singleton.mp hy]
    exact hr

theorem Collecting.visited_concat
    (hnumbers : ∃ o, info'.Numbers r o) (hkept : ∀ y o, info.Numbers y o → info'.Numbers y o) (y : ℕ)
    (hy : p.ConstRead insts y) (hrest : y ∉ rest) : y ∈ all ++ [r] ∧ ∃ o, info'.Numbers y o := by
  rcases eq_or_ne y r with rfl | hne
  · exact ⟨List.mem_append_right _ (List.mem_singleton_self _), hnumbers⟩
  · obtain ⟨hin, o, ho⟩ := h.visited y hy fun hin => hrest ((List.mem_cons.mp hin).resolve_left hne)
    exact ⟨List.mem_append_left _ hin, o, hkept y o ho⟩

theorem Collecting.duplicate
    (hr : p.ConstRead insts r) (h' : p.Deduplicated insts d info r o info' names') (hne : o ≠ r) :
    p.Collecting insts d rest info' (all ++ [r]) names' := by
  have hfirst : info'.First o := by
    obtain ⟨n, -, ho⟩ := h'.numbers
    exact ⟨n, ho⟩
  have hnot (o' : ℕ) (ho' : info'.First o') : o' ≠ r := by
    rintro rfl
    exact hne (h'.firsts.eq_of_same hfirst ho' (h'.firsts.same h'.numbers).symm)
  exact {
    toPointing := h.toPointing.deduplicated h'
    subset := fun y hy => h.subset (List.mem_cons_of_mem _ hy)
    done := fun o' ho' hread hrest => by
      rw [h'.pointer_uses]
      rcases h'.new o' ho' with hold | ⟨heq, -⟩
      · exact h.done o' hold hread fun hin => hrest ((List.mem_cons.mp hin).resolve_left (hnot o' ho'))
      · exact absurd heq (hnot o' ho')
    reads := h.concat hr
    visited := h.visited_concat ⟨o, h'.numbers⟩ h'.kept }

end

theorem Collecting.use (hp : p.Walkable insts E) (h : p.Collecting insts d (r :: rest) info all names)
    (hr : p.ConstRead insts r) (hat : p.ReadAt r c L off)
    (hL : p.Load insts L) (hLr : ¬ p.Same (.inst L) (.inst r)) (h1 : p.Deduplicated insts d info r r info1 names1)
    (h2 : p.Deduplicated insts d info1 L b info2 names2)
    (hroots : (∃ reg, p.UserData b reg ∧ roots = info2.srt_roots.insert reg b) ∨
      ((p.insts b).op ≠ .getUserData ∧ roots = info2.srt_roots)) : p.Collecting insts d rest { info2 with
      pointer_uses := update info2.pointer_uses b
        (some (((info2.pointer_uses b).getD .empty).insert off.toNat r))
      srt_roots := roots } (all ++ [r]) names2 := by
  have hpointing := (h.toPointing.deduplicated h1).deduplicated h2
  have hfirst : info2.First r := by
    obtain ⟨n, -, hn⟩ := h1.numbers
    exact h2.mono r ⟨n, hn⟩
  have hb : info2.First b := by
    obtain ⟨n, -, hn⟩ := h2.numbers
    exact ⟨n, hn⟩
  have hsame := h2.firsts.same h2.numbers
  constructor
  case toPointing => exact hpointing.insert hp hr hat hfirst hb hsame hroots
  case subset => exact fun y hy => h.subset (List.mem_cons_of_mem _ hy)
  case reads => exact h.concat hr
  case visited =>
    obtain ⟨n, hn, ho⟩ := h2.kept _ _ h1.numbers
    exact h.visited_concat ⟨r, n, hn, ho⟩ fun y o hy => h2.kept y o (h1.kept y o hy)
  case done =>
    intro o ho hread hrest
    show ∃ b' ul k, update info2.pointer_uses b _ b' = some ul ∧ (k, o) ∈ ul
    rcases eq_or_ne o r with rfl | hne
    · exact ⟨b, _, off.toNat, update_self .., OrdMap.mem_insert.mpr (.inl rfl)⟩
    have hleft : o ∉ r :: rest := fun hin => hrest ((List.mem_cons.mp hin).resolve_left hne)
    -- A first that is new would be the low half, to which the loop has come before.
    have hold1 : info1.First o := by
      rcases h2.new o ho with hold | ⟨rfl, hnew⟩
      · exact hold
      · obtain ⟨-, oL, hnumbers⟩ := h.visited o hread hleft
        have hnumbers1 := h1.kept o oL hnumbers
        obtain ⟨n, -, hn⟩ := hnumbers1
        exact absurd (h1.firsts.same (h1.kept o oL hnumbers)) (hnew oL ⟨n, hn⟩)
    have hold : info.First o := by
      rcases h1.new o hold1 with hold | ⟨heq, -⟩
      · exact hold
      · exact absurd heq hne
    obtain ⟨b', ul, k, hul, hk⟩ := h.done o hold hread hleft
    have hul2 : info2.pointer_uses b' = some ul := by
      rw [h2.pointer_uses, h1.pointer_uses]
      exact hul
    rcases eq_or_ne b' b with rfl | hb'
    · refine ⟨b', _, k, update_self .., OrdMap.mem_insert.mpr (.inr ⟨?_, fun heq => ?_⟩)⟩
      · rw [hul2]
        exact hk
      · -- Two reads at one offset under one pointer are the same.
        obtain ⟨c', L', off', -, hat', hk', hsame', -⟩ := hpointing.uses b' ul k o hul2 hk
        have hoff : off' = off := BitVec.eq_of_toNat_eq (hk'.symm.trans heq)
        subst hoff
        have hreads := hp.same r o c c' L L' off' hr hread hat hat' (hsame.trans hsame'.symm)
        exact hne (h2.firsts.eq_of_same ho hfirst hreads.symm)
    · refine ⟨b', ul, k, ?_, hk⟩
      rw [update_of_ne hb']
      exact hul2

theorem UserData.scalarReg_eq (h : p.UserData x reg) : p.scalarReg ((p.insts x).arg 0) = some reg := by
  unfold scalarReg
  rw [h.reg]
  rfl

theorem usePointer_spec (hp : p.Walkable insts E) (hr : p.ConstRead insts r) (hat : p.ReadAt r c L off)
    (hL : p.Load insts L) (hb : p.Load insts b)
    (hdedup : p.deduplicateInstruction calls L info = some (b, info2)) : ∃ roots,
      ((∃ reg, p.UserData b reg ∧ roots = info2.srt_roots.insert reg b) ∨
        ((p.insts b).op ≠ .getUserData ∧ roots = info2.srt_roots)) ∧ p.usePointer calls r info = some { info2 with
        pointer_uses := update info2.pointer_uses b
          (some (((info2.pointer_uses b).getD .empty).insert off.toNat r))
        srt_roots := roots } := by
  have hbase0 : p.breadthFirstSearchValue Opcode.isPointer ((p.insts c).arg 0) = some L := by
    apply breadthFirstSearchValue_eq hat.low
    rcases hL.op with hop | hop
    · rw [hop]
      rfl
    · rw [hop]
      rfl
  obtain ⟨base1, hbase1⟩ := isSome_iff_exists.mp (hp.found r c L off hr hat)
  have hoffset : p.u32 ((p.insts r).arg 1) = some off.toNat := by
    unfold u32
    rw [hat.offset]
    rfl
  unfold usePointer
  rw [hat.pointer]
  simp only [bind_eq_bind, bind_some, Value.inst?, hbase0, hbase1, hdedup, hoffset]
  split
  next hop =>
    rcases hb with ⟨reg, -, hdata⟩ | ⟨-, hread, -⟩
    · refine ⟨_, .inl ⟨reg, hdata, rfl⟩, ?_⟩
      rw [hdata.scalarReg_eq]
      rfl
    · rw [hread] at hop
      cases hop
  next hop => exact ⟨_, .inr ⟨hop, rfl⟩, rfl⟩

theorem Firsts.load (h : p.Firsts insts d info names) (ho : info.Numbers x o) : p.Load insts o := by
  obtain ⟨n, -, hn⟩ := ho
  exact (h.first n o hn).choose_spec.2.2

theorem visitInst_spec (hp : p.Walkable insts E) (hd : ∀ r, p.ConstRead insts r → ∃ K, p.HasKey d (.inst r) K)
    (hcalls : d ≤ calls) (h : p.Collecting insts d (r :: rest) info all names) :
    ∃ s names', p.visitInst calls (info, all) r = some s ∧ p.Collecting insts d rest s.1 s.2 names' := by
  have hin : r ∈ insts := h.subset List.mem_cons_self
  unfold visitInst
  split
  next hop =>
    obtain ⟨v, hv⟩ := hp.offset r hin hop
    rw [hv, bind_eq_bind, bind_some]
    split
    next hinst =>
      refine ⟨_, names, rfl, h.skip fun ⟨_, _, v', hv', hnone⟩ => ?_⟩
      obtain rfl := some.inj (hv.symm.trans hv')
      rw [hnone] at hinst
      cases hinst
    next hinst =>
      have hr : p.ConstRead insts r := ⟨hin, hop, v, hv, not_isSome_iff_eq_none.mp hinst⟩
      obtain ⟨K, hK⟩ := hd r hr
      obtain ⟨o, info1, names1, hdedup, h1⟩ := deduplicateInstruction_spec h.toFirsts (.inr hr) hK hcalls
      dsimp only
      rw [hdedup, bind_eq_bind, bind_some]
      dsimp only
      split
      next heq =>
        subst heq
        obtain ⟨c, L, off, hat, -, hlow⟩ := hp.read o hr
        have hL : p.Load insts L := hlow
        obtain ⟨KL, hKL, hlt⟩ := hat.low_key hK
        obtain ⟨b, info2, names2, hdedup2, h2⟩ := deduplicateInstruction_spec h1.firsts hL hKL hcalls
        have hLr : ¬ p.Same (.inst L) (.inst o) := by
          rintro ⟨_, _, K', hS, hS'⟩
          rw [hKL.unique hS, hK.unique hS'] at hlt
          exact Nat.lt_irrefl _ hlt
        obtain ⟨roots, hroots, huse⟩ :=
          usePointer_spec hp hr hat hL (h2.firsts.load h2.numbers) hdedup2
        rw [huse]
        exact ⟨_, names2, rfl, h.use hp hr hat hL hLr h1 h2 hroots⟩
      next hne => exact ⟨_, names1, rfl, h.duplicate hr h1 hne⟩
  next hop => exact ⟨_, names, rfl, h.skip fun hr => hop hr.2.1⟩

theorem collecting_start (p : Program) (insts : List ℕ) (d : ℕ) : p.Collecting insts d insts {} [] [] where
  table := {
    length := rfl
    nodup := List.nodup_nil
    number := fun _ _ hn => by cases hn
    leaf := fun _ _ hn => by cases hn
    vector := fun _ _ _ _ hn => by cases hn
    node := fun _ _ _ _ hn => by cases hn }
  first := fun _ _ ho => by cases ho
  uses := fun _ _ _ _ hul => by cases hul
  pointers := fun _ hb => by cases hb
  roots := fun _ _ => iff_of_false OrdMap.not_mem_empty fun hand => by cases hand.2
  subset := fun _ => id
  done := fun _ ho => by obtain ⟨n, hn⟩ := ho; cases hn
  reads := fun _ hr => (List.not_mem_nil hr).elim
  visited := fun r hr hrest => absurd hr.1 hrest

theorem visitInsts_spec (hp : p.Walkable insts E)
    (hd : ∀ r, p.ConstRead insts r → ∃ K, p.HasKey d (.inst r) K) (hcalls : d ≤ calls) :
    ∃ s names, insts.foldlM (p.visitInst calls) ({}, []) = some s ∧ p.Collecting insts d [] s.1 s.2 names := by
  obtain ⟨s, hs, names, hdone⟩ := foldlM_completes
    (I := fun rest (s : PassInfo × List ℕ) => ∃ names, p.Collecting insts d rest s.1 s.2 names)
    (f := p.visitInst calls) (s := (({}, []) : PassInfo × List ℕ))
    (fun r rest s ⟨names, h⟩ => by
      obtain ⟨s', names', hs', h'⟩ := visitInst_spec hp hd hcalls h
      exact ⟨s', hs', names', h'⟩)
    ⟨[], collecting_start p insts d⟩
  exact ⟨s, names, hs, hdone⟩

end Program

end ShadPS4.IR

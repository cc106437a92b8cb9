import Recovery.Qsufsort
import Recovery.Segments

/-!
What `split` does to a group: it permutes the suffixes of the group, and gives each part whose keys
were equal a group of its own.
-/
namespace Recovery.Splitting
open Memory Qsufsort Segments Option

/-! ## Arrays -/

theorem peek_nat (l : Words) (i : Nat) : peek l i = l[i]? := by simp [peek]
variable {i : Nat}

theorem poke_nat {l : Words} (inside : i < l.length) (x : Int) : poke l i x = some (l.set i x) := by
  simp [poke,inside]

def Shows (I : Words) (P : Equiv.Perm Nat) (lo hi : Nat) : Prop := ∀ i, lo ≤ i → i < hi → I[i]? = some (P i : Int)

def key (V : Words) (h s : Nat) : Int := V.getD (s + h) 0

theorem keyAt_shows {I V : Words} {P : Equiv.Perm Nat} {lo hi h : Nat} (shows_ : Shows I P lo hi) (low : lo ≤ i)
    (high : i < hi) (inside : P i + h < V.length) : keyAt I V h i = some (key V h (P i)) := by
  have sum : ((P i : Nat) : Int) + (h : Int) = ((P i + h : Nat) : Int) := by push_cast; rfl
  simp only [keyAt,peek_nat,shows_ i low high,bind_eq_bind,bind_some,sum]
  simp [key,inside]

/-- `I` and the order of the suffixes changed in a part only, by a permutation. -/
structure Shuffled (lo hi : Nat) (I₀ : Words) (P₀ : Equiv.Perm Nat) (I : Words) (P : Equiv.Perm Nat) : Prop where
  moves : ∃ σ, Moves lo hi σ ∧ ∀ k, P k = P₀ (σ k)
  length : I.length = I₀.length
  outside : ∀ i, ¬ (lo ≤ i ∧ i < hi) → I[i]? = I₀[i]?
  lists : Shows I P lo hi

variable {lo hi : Nat} {I₀ I : Words} {P₀ P : Equiv.Perm Nat}

theorem shuffled_refl (lists : Shows I P lo hi) : Shuffled lo hi I P I P :=
  ⟨⟨Equiv.refl Nat,moves_refl lo hi,fun _ => rfl⟩,rfl,fun _ _ => rfl,lists⟩
theorem shuffled_outside (shuffled : Shuffled lo hi I₀ P₀ I P) {k : Nat} (out : ¬ (lo ≤ k ∧ k < hi)) : P k = P₀ k := by
  obtain ⟨σ,moves,same⟩ := shuffled.moves
  rw [same,moves k out]
theorem shuffled_every (shuffled : Shuffled lo hi I₀ P₀ I P) (good : Nat → Prop)
    (every : ∀ k, lo ≤ k → k < hi → good (P₀ k)) : ∀ k, lo ≤ k → k < hi → good (P k) := by
  intro k low high
  obtain ⟨σ,moves,same⟩ := shuffled.moves
  rw [same]
  have inside := moves_inside moves ⟨low,high⟩
  exact every _ inside.1 inside.2
theorem shuffled_tally (shuffled : Shuffled lo hi I₀ P₀ I P) (p : Nat → Prop) [DecidablePred p] :
    tally (fun k => p (P k)) lo hi = tally (fun k => p (P₀ k)) lo hi := by
  obtain ⟨σ,moves,same⟩ := shuffled.moves
  simp only [same]
  exact tally_moves moves fun k => p (P₀ k)

theorem keyAt_shuffled {V : Words} {h : Nat} (shuffled : Shuffled lo hi I₀ P₀ I P)
    (deep : ∀ m, lo ≤ m → m < hi → P₀ m + h < V.length) (low : lo ≤ i) (high : i < hi) :
    keyAt I V h i = some (key V h (P i)) :=
  keyAt_shows shuffled.lists low high (shuffled_every shuffled (· + h < V.length) deep i low high)

theorem shuffled_swap (shuffled : Shuffled lo hi I₀ P₀ I P) (room : hi ≤ I₀.length) {j : Nat} (low : lo ≤ i)
    (high : i < hi) (low' : lo ≤ j) (high' : j < hi) :
    ∃ I', swap I i j = some I' ∧ Shuffled lo hi I₀ P₀ I' ((Equiv.swap i j).trans P) := by
  have size := shuffled.length
  refine ⟨(I.set i (P j)).set j (P i),?_,?_,?_,?_,?_⟩
  · simp only [swap,peek_nat,shuffled.lists i low high,shuffled.lists j low' high',bind_eq_bind,bind_some]
    rw [poke_nat (by omega),bind_some,poke_nat (by simp; omega)]
  · obtain ⟨σ,moves,same⟩ := shuffled.moves
    exact ⟨(Equiv.swap i j).trans σ,moves_trans (moves_swap ⟨low,high⟩ ⟨low',high'⟩) moves,fun k => by simp [same]⟩
  · simpa using size
  · intro k out
    rw [List.getElem?_set_ne (by omega),List.getElem?_set_ne (by omega)]
    exact shuffled.outside k out
  intro k low'' high''
  rw [Equiv.trans_apply]
  by_cases second : k = j
  · rw [second,List.getElem?_set_self (by simp; omega),Equiv.swap_apply_right]
  rw [List.getElem?_set_ne (Ne.symm second)]
  by_cases one : k = i
  · rw [one,List.getElem?_set_self (by omega),Equiv.swap_apply_left]
  · rw [List.getElem?_set_ne (Ne.symm one),Equiv.swap_apply_of_ne_of_ne one second]
    exact shuffled.lists k low'' high''

/-! ## Groups -/

/-- `V` has the group of each suffix, told by its last index, and suffixes of one group
    are longer than `h`. -/
structure Ranked (n h : Nat) (V : Words) (P : Equiv.Perm Nat) (R : Nat → Nat) : Prop where
  stays : ∀ k, P k ≤ n ↔ k ≤ n
  size : V.length = n + 1
  groups : ∀ k ≤ n, V[P k]? = some (R k : Int)
  ends : Ends n R
  deep : ∀ i j, i ≤ n → j ≤ n → i ≠ j → R i = R j → P i + h ≤ n

section
variable {n h : Nat} {V : Words} {R : Nat → Nat}

theorem ranked_key (ranked : Ranked n h V P R) {i : Nat} (inside : P i + h ≤ n) :
    P.symm (P i + h) ≤ n ∧ key V h (P i) = R (P.symm (P i + h)) := by
  have small : P.symm (P i + h) ≤ n := by
    rw [← ranked.stays,P.apply_symm_apply]
    exact inside
  have found := ranked.groups _ small
  rw [P.apply_symm_apply] at found
  exact ⟨small,by simp [key,List.getD_eq_getElem?_getD,found]⟩
theorem ranked_twice (ranked : Ranked n h V P R) {i j : Nat} (other : i ≠ j) (inside : P i + h ≤ n) (inside' : P j + h ≤ n)
    (same : key V h (P i) = key V h (P j)) : P i + (h + h) ≤ n := by
  obtain ⟨small,first⟩ := ranked_key ranked inside
  obtain ⟨small',second⟩ := ranked_key ranked inside'
  have apart : P.symm (P i + h) ≠ P.symm (P j + h) := by
    intro equal
    have := P.symm.injective equal
    exact other (P.injective (by omega))
  have further := ranked.deep _ _ small small' apart (by rw [first,second] at same; exact_mod_cast same)
  rw [P.apply_symm_apply] at further
  omega
theorem ranked_shuffled (ranked : Ranked n h V P₀ R) (shuffled : Shuffled lo hi I₀ P₀ I P) (inside : hi ≤ n + 1)
    {value : Nat} (whole : ∀ k, lo ≤ k → k < hi → R k = value) : Ranked n h V P R := by
  obtain ⟨σ,moves,same⟩ := shuffled.moves
  have flat := moves_flat moves whole
  have small (k : Nat) : σ k ≤ n ↔ k ≤ n := by
    by_cases within : lo ≤ k ∧ k < hi
    · have := moves_inside moves within
      omega
    · rw [moves k within]
  refine ⟨fun k => ?_,ranked.size,fun k inside => ?_,ranked.ends,fun i j inside inside' other equal => ?_⟩
  · rw [same,ranked.stays,small]
  · rw [same,ranked.groups _ ((small k).mpr inside),flat]
  · rw [same]
    refine ranked.deep _ (σ j) ((small i).mpr inside) ((small j).mpr inside') (fun equal => other (σ.injective equal)) ?_
    rw [flat,flat,equal]

theorem setGroup_spec (group : Int) (count first : Nat) (lists : Shows I P first (first + count))
    (inside : ∀ k, first ≤ k → k < first + count → P k < V.length) :
    ∃ V', setGroup I group count first V = some V' ∧ V'.length = V.length ∧
      (∀ k, first ≤ k → k < first + count → V'[P k]? = some group) ∧
      (∀ k, ¬ (first ≤ k ∧ k < first + count) → V'[P k]? = V[P k]?) := by
  induction count generalizing first V with
  | zero => exact ⟨V,rfl,rfl,by omega,fun _ _ => rfl⟩
  | succ count ih =>
    have here := inside first (by omega) (by omega)
    obtain ⟨V',run,size,within,out⟩ := ih (V := V.set (P first) group) (first + 1)
      (fun k low high => lists k (by omega) (by omega)) (fun k low high => by simpa using inside k (by omega) (by omega))
    refine ⟨V',?_,by simpa using size,fun k low high => ?_,fun k other => ?_⟩
    · simp only [setGroup,peek_nat,lists first le_rfl (by omega),bind_eq_bind,bind_some]
      rw [poke_nat here,bind_some]
      exact_mod_cast run
    · by_cases same : k = first
      · rw [same,out first (by omega),List.getElem?_set_self here]
      · exact within k (by omega) (by omega)
    · rw [out k (by omega),List.getElem?_set_ne]
      intro equal
      have := P.injective equal
      omega

theorem setGroup_cut (ranked : Ranked n h V P R) {first middle final : Nat} (segment : Segment R first final)
    (low : first ≤ middle) (high : middle ≤ final) (inside : final ≤ n) (lists : Shows I P first (middle + 1)) :
    ∃ V', setGroup I middle (middle + 1 - first) first V = some V' ∧ Ranked n h V' P (cut R first middle) := by
  have whole : first + (middle + 1 - first) = middle + 1 := by omega
  obtain ⟨V',run,size,within,out⟩ := setGroup_spec (V := V) (I := I) (P := P) middle
    (middle + 1 - first) first (by rw [whole]; exact lists) (by
      intro k _ high'
      have := (ranked.stays k).mpr (by omega)
      rw [ranked.size]
      omega)
  rw [whole] at within out
  refine ⟨V',run,ranked.stays,size.trans ranked.size,fun k small => ?_,
    ends_cut ranked.ends segment high inside,fun i j small small' other same => ?_⟩
  · by_cases here : first ≤ k ∧ k < middle + 1
    · rw [within k here.1 here.2,cut_inside here.1 (by omega)]
    · rw [out k here,ranked.groups k small,cut_outside (by omega)]
  · exact ranked.deep i j small small' other (cut_refines ranked.ends segment high small small' same)

/-- How `I` describes a part: sorted runs, and groups whose suffixes are at least `h` long. -/
inductive Chunks (n h : Nat) (I : Words) (P : Equiv.Perm Nat) (R : Nat → Nat) : Nat → Nat → Prop where
  | nil (k : Nat) : Chunks n h I P R k k
  | run {k r stop : Nat} (sorted : I[k]? = some (-(r : Int))) (nonempty : 0 < r)
      (alone : ∀ j, k ≤ j → j < k + r → R j = j) (rest : Chunks n h I P R (k + r) stop) : Chunks n h I P R k stop
  | group {k e stop : Nat} (low : k ≤ e) (lists : Shows I P k (e + 1)) (whole : ∀ j, k ≤ j → j ≤ e → R j = e)
      (deep : ∀ j, k ≤ j → j ≤ e → P j + h ≤ n) (rest : Chunks n h I P R (e + 1) stop) : Chunks n h I P R k stop

theorem chunks_le {start stop : Nat} (chunks : Chunks n h I P R start stop) : start ≤ stop := by
  induction chunks with
  | nil => exact le_rfl
  | run _ _ _ _ ih => omega
  | group _ _ _ _ _ ih => omega
theorem chunks_append {start middle stop : Nat} (first : Chunks n h I P R start middle)
    (second : Chunks n h I P R middle stop) : Chunks n h I P R start stop := by
  induction first with
  | nil => exact second
  | run sorted nonempty alone _ ih => exact .run sorted nonempty alone (ih second)
  | group low lists whole deep _ ih => exact .group low lists whole deep (ih second)
theorem chunks_congr {I' : Words} {P' : Equiv.Perm Nat} {R' : Nat → Nat} {start stop : Nat}
    (chunks : Chunks n h I P R start stop)
    (same : ∀ k, start ≤ k → k < stop → I'[k]? = I[k]? ∧ P' k = P k ∧ R' k = R k) : Chunks n h I' P' R' start stop := by
  induction chunks with
  | nil => exact .nil _
  | @run k r stop sorted nonempty alone rest ih =>
    have := chunks_le rest
    refine .run ?_ nonempty (fun j low high => ?_) (ih fun j low high => same j (by omega) high)
    · rw [(same k le_rfl (by omega)).1,sorted]
    · rw [(same j low (by omega)).2.2,alone j low high]
  | @group k e stop low lists whole deep rest ih =>
    have := chunks_le rest
    refine .group low (fun j low high => ?_) (fun j low high => ?_) (fun j low high => ?_)
      (ih fun j low high => same j (by omega) high)
    · rw [(same j low (by omega)).1,(same j low (by omega)).2.1,lists j low high]
    · rw [(same j low (by omega)).2.2,whole j low high]
    · rw [(same j low (by omega)).2.1]
      exact deep j low high

/-- What is given to a split: a part of a group, from the first index of the group on. -/
structure Ready (n h start stop final : Nat) (I V : Words) (P : Equiv.Perm Nat) (R : Nat → Nat) : Prop where
  ranked : Ranked n h V P R
  size : I.length = n + 1
  segment : Segment R start final
  upTo : stop ≤ final + 1
  inside : final ≤ n
  lists : Shows I P start stop
  deep : ∀ k, start ≤ k → k < stop → P k + h ≤ n

/-- What a split leaves: smaller groups, and everything else as it was. -/
structure Done (n h start stop final : Nat) (I₀ : Words) (P₀ : Equiv.Perm Nat) (R₀ : Nat → Nat) (I V : Words)
    (P : Equiv.Perm Nat) (R : Nat → Nat) : Prop where
  ranked : Ranked n h V P R
  size : I.length = n + 1
  segment : Segment R stop final
  chunks : Chunks n (h + h) I P R start stop
  sameI : ∀ k, ¬ (start ≤ k ∧ k < stop) → I[k]? = I₀[k]?
  sameP : ∀ k, ¬ (start ≤ k ∧ k < stop) → P k = P₀ k
  sameR : ∀ k, ¬ (start ≤ k ∧ k < stop) → R k = R₀ k

variable {start middle stop final : Nat} {V₀ : Words} {R₀ : Nat → Nat}

theorem Done.same (done : Done n h start stop final I₀ P₀ R₀ I V P R) {k : Nat} (out : ¬ (start ≤ k ∧ k < stop)) :
    I[k]? = I₀[k]? ∧ P k = P₀ k ∧ R k = R₀ k := ⟨done.sameI k out,done.sameP k out,done.sameR k out⟩
theorem Ready.room (ready : Ready n h start stop final I V P R) : stop ≤ I.length := by
  have := ready.size
  have := ready.upTo
  have := ready.inside
  omega
theorem Ready.below (ready : Ready n h start stop final I V P R) (k : Nat) (low : start ≤ k) (high : k < stop) :
    P k + h < V.length := by
  rw [ready.ranked.size]
  exact Nat.lt_succ_of_le (ready.deep k low high)
theorem ready_shuffled (ready : Ready n h start stop final I₀ V P₀ R) (shuffled : Shuffled start stop I₀ P₀ I P) :
    Ready n h start stop final I V P R := by
  have upTo := ready.upTo
  have inside := ready.inside
  refine ⟨ranked_shuffled ready.ranked shuffled (by omega) fun k low high => ready.segment.whole k low (by omega),
    shuffled.length.trans ready.size,ready.segment,upTo,inside,shuffled.lists,?_⟩
  exact shuffled_every shuffled (· + h ≤ n) ready.deep
theorem ready_after (ready : Ready n h start stop final I₀ V₀ P₀ R₀) (done : Done n h start middle final I₀ P₀ R₀ I V P R) :
    Ready n h middle stop final I V P R := by
  have low := chunks_le done.chunks
  refine ⟨done.ranked,done.size,done.segment,ready.upTo,ready.inside,fun k after before => ?_,fun k after before => ?_⟩
  · rw [done.sameI k (by omega),done.sameP k (by omega)]
    exact ready.lists k (by omega) before
  · rw [done.sameP k (by omega)]
    exact ready.deep k (by omega) before
theorem done_nil (ready : Ready n h start stop final I V P R) : Done n h start start final I P R I V P R :=
  ⟨ready.ranked,ready.size,ready.segment,.nil _,fun _ _ => rfl,fun _ _ => rfl,fun _ _ => rfl⟩
theorem done_trans {I₁ V₁ : Words} {P₁ : Equiv.Perm Nat} {R₁ : Nat → Nat}
    (first : Done n h start middle final I₀ P₀ R₀ I₁ V₁ P₁ R₁) (second : Done n h middle stop final I₁ P₁ R₁ I V P R) :
    Done n h start stop final I₀ P₀ R₀ I V P R := by
  have low := chunks_le first.chunks
  have high := chunks_le second.chunks
  refine ⟨second.ranked,second.size,second.segment,
    chunks_append (chunks_congr first.chunks fun k _ before => second.same (by omega)) second.chunks,
    fun k out => ?_,fun k out => ?_,fun k out => ?_⟩
  · rw [second.sameI k (by omega),first.sameI k (by omega)]
  · rw [second.sameP k (by omega),first.sameP k (by omega)]
  · rw [second.sameR k (by omega),first.sameR k (by omega)]
theorem done_shuffled {I₁ : Words} {P₁ : Equiv.Perm Nat} (shuffled : Shuffled start stop I₀ P₀ I₁ P₁)
    (done : Done n h start stop final I₁ P₁ R₀ I V P R) : Done n h start stop final I₀ P₀ R₀ I V P R := by
  refine ⟨done.ranked,done.size,done.segment,done.chunks,fun k out => ?_,fun k out => ?_,done.sameR⟩
  · rw [done.sameI k out,shuffled.outside k out]
  · rw [done.sameP k out,shuffled_outside shuffled out]

/-- The step that both ways of splitting share: the first suffixes, which have one key,
    become a group. -/
theorem close_group (ready : Ready n h start stop final I V P R) (low : start ≤ middle) (high : middle < stop)
    (close : ∀ i j, start ≤ i → i ≤ middle → start ≤ j → j ≤ middle → i ≠ j → P i + (h + h) ≤ n) :
    ∃ I' V', setGroup I middle (middle + 1 - start) start V = some V' ∧
      markSingle (start = middle) I start = some I' ∧
      Done n h start (middle + 1) final I P R I' V' P (cut R start middle) := by
  have upTo := ready.upTo
  have inside := ready.inside
  obtain ⟨V',run,ranked⟩ := setGroup_cut ready.ranked ready.segment low (by omega) inside
    fun k low high => ready.lists k low (by omega)
  have segment := segment_cut ready.segment low
  have outside (k : Nat) (out : ¬ (start ≤ k ∧ k < middle + 1)) : cut R start middle k = R k := cut_outside (by omega)
  by_cases single : start = middle
  · refine ⟨I.set start (-1),V',run,?_,ranked,by simpa using ready.size,segment,?_,fun k out => ?_,
      fun _ _ => rfl,outside⟩
    · simp only [markSingle,single,decide_true,↓reduceIte]
      exact poke_nat (by rw [ready.size]; omega) _
    · refine .run (r := 1) ?_ (by omega) (fun j low' high' => ?_) (by rw [single]; exact .nil _)
      · rw [List.getElem?_set_self (by rw [ready.size]; omega)]
        rfl
      · obtain rfl : j = start := by omega
        rw [cut_inside le_rfl low,single]
    · rw [List.getElem?_set_ne (by omega)]
  · refine ⟨I,V',run,by simp [markSingle,single],ranked,ready.size,segment,?_,fun _ _ => rfl,fun _ _ => rfl,outside⟩
    refine .group low (fun k low' high' => ready.lists k low' (by omega)) (fun k => cut_inside) (fun k low' high' => ?_)
      (.nil _)
    -- another suffix of the group shares the key
    by_cases same : k = start
    · exact close k middle low' high' low le_rfl (by omega)
    · exact close k start low' high' le_rfl low same

end

/-! ## Short groups -/

section
variable {V : Words} {h : Nat}

theorem selectLoop_spec {k stop : Nat} (room : stop ≤ I₀.length)
    (deep : ∀ m, k ≤ m → m < stop → P₀ m + h < V.length) {fuel i j : Nat} {x : Int} {I : Words} {P : Equiv.Perm Nat}
    (shuffled : Shuffled k stop I₀ P₀ I P) (some' : 1 ≤ j) (upTo : j ≤ i) (inside : k + i ≤ stop)
    (same : ∀ m, k ≤ m → m < k + j → key V h (P m) = x) (enough : stop - (k + i) < fuel) :
    ∃ I' P' x', ∃ j' : Nat, selectLoop V h k stop fuel i x j I = some (I', (j' : Int)) ∧ Shuffled k stop I₀ P₀ I' P' ∧ 1 ≤ j' ∧
      k + j' ≤ stop ∧ ∀ m, k ≤ m → m < k + j' → key V h (P' m) = x' := by
  induction fuel generalizing i j x I P with
  | zero => omega
  | succ fuel ih =>
    unfold selectLoop
    by_cases more : k + i < stop
    · -- the suffix at `k + i` goes behind the `j` that have its key
      have step (j : Nat) (upTo : j ≤ i) (same : ∀ m, k ≤ m → m < k + j → key V h (P m) = key V h (P (k + i))) :
          ∃ I' P' x', ∃ j' : Nat, (do
            let I ← swap I ((k + j : Nat) : Int) ((k + i : Nat) : Int)
            selectLoop V h k stop fuel (i + 1 : Nat) (key V h (P (k + i))) (j + 1 : Nat) I) = some (I',(j' : Int)) ∧
          Shuffled k stop I₀ P₀ I' P' ∧ 1 ≤ j' ∧ k + j' ≤ stop ∧ ∀ m, k ≤ m → m < k + j' → key V h (P' m) = x' := by
        obtain ⟨I',swapped,shuffled'⟩ := shuffled_swap shuffled room (show k ≤ k + j by omega) (by omega)
          (show k ≤ k + i by omega) more
        rw [swapped]
        refine ih (i := i + 1) (j := j + 1) shuffled' (by omega) (by omega) (by omega) ?_ (by omega)
        intro m low high
        rw [Equiv.trans_apply]
        by_cases last : m = k + j
        · rw [last,Equiv.swap_apply_left]
        · by_cases moved : m = k + i
          · omega
          · rw [Equiv.swap_apply_of_ne_of_ne last moved]
            exact same m low (by omega)
      rw [if_pos (by omega),← Nat.cast_add,keyAt_shuffled shuffled deep (by omega) more]
      simp only [bind_eq_bind,bind_some]
      by_cases less : key V h (P (k + i)) < x
      · simp only [less,↓reduceIte]
        exact_mod_cast step 0 (by omega) (by omega)
      simp only [less,↓reduceIte]
      by_cases equal : key V h (P (k + i)) = x
      · simp only [equal,↓reduceIte]
        rw [← equal]
        exact_mod_cast step j upTo (by rw [equal]; exact same)
      · simp only [equal,↓reduceIte]
        exact_mod_cast ih (i := i + 1) shuffled some' (by omega) (by omega) same (by omega)
    · rw [if_neg (by omega)]
      exact ⟨I,P,x,j,rfl,shuffled,some',by omega,same⟩

variable {n stop final : Nat}

theorem shortLoop_spec {fuel k : Nat} {I₀ V₀ : Words} {P₀ : Equiv.Perm Nat} {R₀ : Nat → Nat}
    (ready : Ready n h k stop final I₀ V₀ P₀ R₀) (low : k ≤ stop) (enough : stop - k < fuel) :
    ∃ I V P R, shortLoop h stop fuel k I₀ V₀ = some (I, V) ∧ Done n h k stop final I₀ P₀ R₀ I V P R := by
  induction fuel generalizing k I₀ V₀ P₀ R₀ with
  | zero => omega
  | succ fuel ih =>
    unfold shortLoop
    by_cases more : k < stop
    · obtain ⟨I₁,P₁,x,j,selected,shuffled,some',below,same⟩ := selectLoop_spec ready.room ready.below
        (shuffled_refl ready.lists) (le_refl 1) (le_refl 1) (by omega) (fun m low high => by rw [show m = k by omega])
        (show stop - (k + 1) < stop - k + 1 by omega)
      have ready₁ := ready_shuffled ready shuffled
      obtain ⟨I₂,V₂,grouped,marked,done⟩ := close_group ready₁ (show k ≤ k + j - 1 by omega) (by omega)
        fun a b low high low' high' other => ranked_twice ready₁.ranked other (ready₁.deep a low (by omega))
          (ready₁.deep b low' (by omega)) (by rw [same a low (by omega),same b low' (by omega)])
      rw [show k + j - 1 + 1 = k + j by omega] at done
      obtain ⟨I,V,P,R,rest,last⟩ := ih (ready_after ready₁ done) (by omega) (by omega)
      refine ⟨I,V,P,R,?_,done_shuffled shuffled (done_trans done last)⟩
      have count : ((stop : Int) - k).toNat = stop - k := by omega
      have group : ((k + j : Nat) : Int) - 1 = ((k + j - 1 : Nat) : Int) := by omega
      have single : decide ((j : Int) = 1) = decide (k = k + j - 1) := by rw [decide_eq_decide]; omega
      rw [show k + j - 1 + 1 - k = j by omega] at grouped
      rw [Nat.cast_one] at selected
      rw [if_pos (by omega),keyAt_shows ready.lists le_rfl more (ready.below k le_rfl more)]
      simp only [bind_eq_bind,bind_some,count,selected,Int.toNat_natCast,← Nat.cast_add,group,grouped,
        single,marked,rest]
    · rw [if_neg (by omega)]
      obtain rfl : k = stop := by omega
      exact ⟨I₀,V₀,P₀,R₀,rfl,done_nil ready⟩

end

/-! ## Long groups -/

def below (V : Words) (P : Equiv.Perm Nat) (h : Nat) (x : Int) (lo hi : Nat) : Nat := tally (fun m => key V h (P m) < x) lo hi
def level (V : Words) (P : Equiv.Perm Nat) (h : Nat) (x : Int) (lo hi : Nat) : Nat := tally (fun m => key V h (P m) = x) lo hi
def above (V : Words) (P : Equiv.Perm Nat) (h : Nat) (x : Int) (lo hi : Nat) : Nat := tally (fun m => x < key V h (P m)) lo hi

section
variable {V : Words} {h start stop : Nat} {x : Int} {fuel i : Nat}

theorem countLoop_spec (lists : Shows I P start stop) (deep : ∀ m, start ≤ m → m < stop → P m + h < V.length)
    (low : start ≤ i) (high : i ≤ stop) (enough : stop - i < fuel) :
    countLoop I V h x stop fuel i (below V P h x start i : Nat) (level V P h x start i : Nat) =
      some ((below V P h x start stop : Int), (level V P h x start stop : Int)) := by
  induction fuel generalizing i with
  | zero => omega
  | succ fuel ih =>
    unfold countLoop
    by_cases more : i < stop
    · have step := ih (i := i + 1) (by omega) more (by omega)
      unfold below level at step ⊢
      rw [tally_succ _ low,tally_succ _ low] at step
      rw [if_pos (by omega),keyAt_shows lists low more (deep i low more)]
      simp only [bind_eq_bind,bind_some]
      rw [← step]
      congr 1
      · split <;> simp
      · split <;> simp
    · obtain rfl : i = stop := by omega
      rw [if_neg (by omega)]

/-- How far the three parts have come: below, at and above `x`. -/
structure Parted (V : Words) (P : Equiv.Perm Nat) (h : Nat) (x : Int) (start jj kk i j k : Nat) : Prop where
  front : ∀ m, start ≤ m → m < i → key V h (P m) < x
  middle : ∀ m, jj ≤ m → m < jj + j → key V h (P m) = x
  back : ∀ m, kk ≤ m → m < kk + k → x < key V h (P m)

/-- Where the parts end once all are in their place. -/
structure Bounds (V : Words) (P : Equiv.Perm Nat) (h : Nat) (x : Int) (start jj kk stop : Nat) : Prop where
  less : start + below V P h x start stop = jj
  equal : jj + level V P h x start stop = kk
  more : kk + above V P h x start stop = stop

theorem bounds_shuffled {jj kk : Nat} (bounds : Bounds V P₀ h x start jj kk stop)
    (shuffled : Shuffled start stop I₀ P₀ I P) : Bounds V P h x start jj kk stop := by
  refine ⟨?_,?_,?_⟩
  · rw [below,shuffled_tally shuffled fun s => key V h s < x]
    exact bounds.less
  · rw [level,shuffled_tally shuffled fun s => key V h s = x]
    exact bounds.equal
  · rw [above,shuffled_tally shuffled fun s => x < key V h s]
    exact bounds.more

variable {jj kk : Nat}

variable {j : Nat} {k : Nat}

theorem middle_room (bounds : Bounds V P h x start jj kk stop) {m : Nat} (parted : Parted V P h x start jj kk i j k)
    (inside : start ≤ m ∧ m < stop) (other : ¬ (jj ≤ m ∧ m < jj + j)) (here : key V h (P m) = x) (upTo : jj + j ≤ stop) :
    jj + j < kk := by
  have room := tally_room (fun m => key V h (P m) = x) parted.middle here (by have := bounds.less; omega) upTo inside other
  have := bounds.equal
  unfold level at this
  omega
theorem back_room (bounds : Bounds V P h x start jj kk stop) {m : Nat} (parted : Parted V P h x start jj kk i j k)
    (inside : start ≤ m ∧ m < stop) (other : ¬ (kk ≤ m ∧ m < kk + k)) (here : x < key V h (P m)) (upTo : kk + k ≤ stop) :
    kk + k < stop := by
  have low : start ≤ kk := by
    have := bounds.less
    have := bounds.equal
    omega
  have room := tally_room (fun m => x < key V h (P m)) parted.back here low upTo inside other
  have := bounds.more
  unfold above at this
  omega
theorem parted_swap {a b : Nat} (parted : Parted V P h x start jj kk i j k) (front : ¬ (start ≤ a ∧ a < i))
    (front' : ¬ (start ≤ b ∧ b < i)) (middle : ¬ (jj ≤ a ∧ a < jj + j)) (middle' : ¬ (jj ≤ b ∧ b < jj + j))
    (back : ¬ (kk ≤ a ∧ a < kk + k)) (back' : ¬ (kk ≤ b ∧ b < kk + k)) :
    Parted V ((Equiv.swap a b).trans P) h x start jj kk i j k := by
  have same {m : Nat} (first : m ≠ a) (second : m ≠ b) : (Equiv.swap a b).trans P m = P m := by
    rw [Equiv.trans_apply,Equiv.swap_apply_of_ne_of_ne first second]
  refine ⟨fun m low high => ?_,fun m low high => ?_,fun m low high => ?_⟩
  · rw [same (by rintro rfl; exact front ⟨low,high⟩) (by rintro rfl; exact front' ⟨low,high⟩)]
    exact parted.front m low high
  · rw [same (by rintro rfl; exact middle ⟨low,high⟩) (by rintro rfl; exact middle' ⟨low,high⟩)]
    exact parted.middle m low high
  · rw [same (by rintro rfl; exact back ⟨low,high⟩) (by rintro rfl; exact back' ⟨low,high⟩)]
    exact parted.back m low high

theorem parted_front (parted : Parted V P h x start jj kk i j k) (less : key V h (P i) < x) :
    Parted V P h x start jj kk (i + 1) j k := by
  refine ⟨fun m low high => ?_,parted.middle,parted.back⟩
  rcases Nat.lt_succ_iff_lt_or_eq.mp high with before | rfl
  · exact parted.front m low before
  · exact less
theorem parted_middle (parted : Parted V P h x start jj kk i j k) (equal : key V h (P (jj + j)) = x) :
    Parted V P h x start jj kk i (j + 1) k := by
  refine ⟨parted.front,fun m low high => ?_,parted.back⟩
  rcases Nat.lt_succ_iff_lt_or_eq.mp high with before | rfl
  · exact parted.middle m low before
  · exact equal
theorem parted_back (parted : Parted V P h x start jj kk i j k) (more : x < key V h (P (kk + k))) :
    Parted V P h x start jj kk i j (k + 1) := by
  refine ⟨parted.front,parted.middle,fun m low high => ?_⟩
  rcases Nat.lt_succ_iff_lt_or_eq.mp high with before | rfl
  · exact parted.back m low before
  · exact more

theorem lessLoop_spec (room : stop ≤ I₀.length) (deep : ∀ m, start ≤ m → m < stop → P₀ m + h < V.length)
    (bounds : Bounds V P₀ h x start jj kk stop) {I : Words} {P : Equiv.Perm Nat}
    (shuffled : Shuffled start stop I₀ P₀ I P) (parted : Parted V P h x start jj kk i j k) (low : start ≤ i) (high : i ≤ jj)
    (upTo : jj + j ≤ kk) (upTo' : kk + k ≤ stop) (enough : (jj - i) + (kk - (jj + j)) + (stop - (kk + k)) < fuel) :
    ∃ I' P', ∃ j' k' : Nat, lessLoop V h x jj kk fuel i j k I = some (I', (j' : Int), (k' : Int)) ∧
      Shuffled start stop I₀ P₀ I' P' ∧ Parted V P' h x start jj kk jj j' k' ∧ jj + j' ≤ kk ∧ kk + k' ≤ stop := by
  induction fuel generalizing i j k I P with
  | zero => omega
  | succ fuel ih =>
    unfold lessLoop
    by_cases more : i < jj
    · have inside : i < stop := by omega
      rw [if_pos (by omega),keyAt_shuffled shuffled deep low inside]
      simp only [bind_eq_bind,bind_some,← Nat.cast_add,← Nat.cast_succ]
      by_cases less : key V h (P i) < x
      · rw [if_pos less]
        exact ih shuffled (parted_front parted less) (by omega) (by omega) upTo upTo' (by omega)
      rw [if_neg less]
      have bounds' := bounds_shuffled bounds shuffled
      by_cases equal : key V h (P i) = x
      · have space := middle_room bounds' parted ⟨low,inside⟩ (by omega) equal (by omega)
        obtain ⟨I',swapped,shuffled'⟩ := shuffled_swap shuffled room low inside (show start ≤ jj + j by omega) (by omega)
        rw [if_pos equal,swapped,bind_some]
        have parted' := parted_swap (a := i) (b := jj + j) parted (by omega) (by omega) (by omega) (by omega) (by omega)
          (by omega)
        refine ih shuffled' (parted_middle parted' ?_) low high (by omega) upTo' (by omega)
        rw [Equiv.trans_apply,Equiv.swap_apply_right,equal]
      · have greater : x < key V h (P i) := by omega
        have space := back_room bounds' parted ⟨low,inside⟩ (by omega) greater (by omega)
        obtain ⟨I',swapped,shuffled'⟩ := shuffled_swap shuffled room low inside (show start ≤ kk + k by omega) space
        rw [if_neg equal,swapped,bind_some]
        have parted' := parted_swap (a := i) (b := kk + k) parted (by omega) (by omega) (by omega) (by omega) (by omega)
          (by omega)
        refine ih shuffled' (parted_back parted' ?_) low high upTo (by omega) (by omega)
        rwa [Equiv.trans_apply,Equiv.swap_apply_right]
    · obtain rfl : i = jj := by omega
      rw [if_neg (by omega)]
      exact ⟨I,P,j,k,rfl,shuffled,parted,upTo,upTo'⟩

theorem equalLoop_spec (room : stop ≤ I₀.length) (deep : ∀ m, start ≤ m → m < stop → P₀ m + h < V.length)
    (bounds : Bounds V P₀ h x start jj kk stop) {I : Words} {P : Equiv.Perm Nat}
    (shuffled : Shuffled start stop I₀ P₀ I P) (parted : Parted V P h x start jj kk jj j k)
    (upTo : jj + j ≤ kk) (upTo' : kk + k ≤ stop) (enough : (kk - (jj + j)) + (stop - (kk + k)) < fuel) :
    ∃ I' P', equalLoop V h x jj kk fuel j k I = some I' ∧ Shuffled start stop I₀ P₀ I' P' ∧
      ∀ m, jj ≤ m → m < kk → key V h (P' m) = x := by
  induction fuel generalizing j k I P with
  | zero => omega
  | succ fuel ih =>
    unfold equalLoop
    by_cases more : jj + j < kk
    · have bounds' := bounds_shuffled bounds shuffled
      have low : start ≤ jj := by have := bounds.less; omega
      rw [if_pos (by omega),← Nat.cast_add,keyAt_shuffled shuffled deep (by omega) (by omega)]
      simp only [bind_eq_bind,bind_some,← Nat.cast_add,← Nat.cast_succ]
      by_cases equal : key V h (P (jj + j)) = x
      · rw [if_pos equal]
        exact ih shuffled (parted_middle parted equal) (by omega) upTo' (by omega)
      rw [if_neg equal]
      -- all keys below `x` are in front already
      have notLess : ¬ key V h (P (jj + j)) < x := by
        intro less
        have space := tally_room (fun m => key V h (P m) < x) parted.front less le_rfl (by omega)
          (show start ≤ jj + j ∧ jj + j < stop by omega) (by omega)
        have := bounds'.less
        unfold below at this
        omega
      have greater : x < key V h (P (jj + j)) := by omega
      have space := back_room bounds' parted (show start ≤ jj + j ∧ jj + j < stop by omega) (by omega) greater (by omega)
      obtain ⟨I',swapped,shuffled'⟩ := shuffled_swap shuffled room (show start ≤ jj + j by omega) (by omega)
        (show start ≤ kk + k by omega) space
      rw [swapped,bind_some]
      have parted' := parted_swap (a := jj + j) (b := kk + k) parted (by omega) (by omega) (by omega) (by omega) (by omega)
        (by omega)
      refine ih shuffled' (parted_back parted' ?_) upTo (by omega) (by omega)
      rwa [Equiv.trans_apply,Equiv.swap_apply_right]
    · rw [if_neg (by omega)]
      exact ⟨I,P,rfl,shuffled,fun m low high => parted.middle m low (by omega)⟩

end

section
variable {n h final : Nat} {x : Int}

/-- The keys that are counted, the loops that move them, and what they leave in the middle. -/
theorem partition_spec {start len : Nat} {I₀ V : Words} {R : Nat → Nat} (ready : Ready n h start (start + len) final I₀ V P₀ R)
    (some' : 0 < len) :
    let x := key V h (P₀ (start + len / 2))
    ∃ I₁ I P, ∃ jj kk j k : Nat, keyAt I₀ V h (start + len / 2 : Int) = some x ∧
      countLoop I₀ V h x (start + len : Int) (len + 1) start 0 0 = some ((jj : Int) - start, (kk : Int) - jj) ∧
      lessLoop V h x jj kk (len + 1) start 0 0 I₀ = some (I₁, (j : Int), (k : Int)) ∧
      equalLoop V h x jj kk (len + 1) j k I₁ = some I ∧ Shuffled start (start + len) I₀ P₀ I P ∧
      start ≤ jj ∧ jj < kk ∧ kk ≤ start + len ∧ ∀ m, jj ≤ m → m < kk → key V h (P m) = x := by
  intro x
  have pivot : keyAt I₀ V h (start + len / 2 : Int) = some x := by
    exact_mod_cast keyAt_shows ready.lists (by omega) (by omega) (ready.below (start + len / 2) (by omega) (by omega))
  have counted := countLoop_spec (x := x) ready.lists ready.below (le_refl start) (show start ≤ start + len by omega)
    (show start + len - start < len + 1 by omega)
  have three := tally_three (fun m => key V h (P₀ m)) x (show start ≤ start + len by omega)
  have bounds : Bounds V P₀ h x start (start + below V P₀ h x start (start + len))
      (start + below V P₀ h x start (start + len) + level V P₀ h x start (start + len)) (start + len) := by
    refine ⟨rfl,rfl,?_⟩
    unfold below level above
    omega
  have present : 0 < level V P₀ h x start (start + len) := by
    have one := tally_room (fun m => key V h (P₀ m) = x) (a := start) (b := start) (by omega) (show key V h _ = x from rfl)
      le_rfl (by omega) (show start ≤ start + len / 2 ∧ start + len / 2 < start + len by omega) (by omega)
    rwa [Nat.sub_self] at one
  have top := bounds.more
  obtain ⟨I₁,P₁,j,k,moved,shuffled,parted,mid,back⟩ := lessLoop_spec ready.room ready.below bounds
    (shuffled_refl ready.lists) ⟨by omega,by omega,by omega⟩ (le_refl start) (by omega)
    (j := 0) (k := 0) (by omega) (by omega) (show _ < len + 1 by omega)
  obtain ⟨I,P,moved',shuffled',same⟩ := equalLoop_spec ready.room ready.below bounds shuffled parted mid back
    (show _ < len + 1 by omega)
  refine ⟨I₁,I,P,_,_,j,k,pivot,?_,moved,moved',shuffled',by omega,by omega,by omega,same⟩
  unfold below level at counted
  rw [tally_self,tally_self] at counted
  refine Eq.trans counted ?_
  unfold below level
  congr 2 <;> push_cast <;> ring

theorem split_spec {fuel start len : Nat} {I₀ V₀ : Words} {P₀ : Equiv.Perm Nat} {R₀ : Nat → Nat}
    (ready : Ready n h start (start + len) final I₀ V₀ P₀ R₀) (enough : len < fuel) :
    ∃ I V P R, split h fuel start len I₀ V₀ = some (I, V) ∧ Done n h start (start + len) final I₀ P₀ R₀ I V P R := by
  induction fuel generalizing start len I₀ V₀ P₀ R₀ with
  | zero => omega
  | succ fuel ih =>
    unfold split
    by_cases short : len < 16
    · rw [if_pos (by omega),Int.toNat_natCast]
      exact_mod_cast shortLoop_spec ready (by omega) (show start + len - start < len + 1 by omega)
    rw [if_neg (by omega),Int.toNat_natCast]
    obtain ⟨I₁,I₂,P₂,jj,kk,j,k,pivot,counted,moved,moved',shuffled,low,mid,high,same⟩ :=
      partition_spec ready (by omega)
    have ready₂ := ready_shuffled ready shuffled
    have left : ∃ I V P R, (if (jj : Int) > start then split h fuel start (jj - start : Int) I₂ V₀ else some (I₂,V₀)) =
        some (I,V) ∧ Done n h start jj final I₂ P₂ R₀ I V P R := by
      by_cases nonempty : start < jj
      · obtain ⟨size,rfl⟩ : ∃ size, jj = start + size := ⟨jj - start,by omega⟩
        rw [if_pos (by omega),show ((start + size : Nat) : Int) - start = (size : Int) by omega]
        refine ih ⟨ready₂.ranked,ready₂.size,ready₂.segment,?_,ready₂.inside,?_,?_⟩ (by omega)
        · have := ready₂.upTo
          omega
        · exact fun m low high => ready₂.lists m low (by omega)
        · exact fun m low high => ready₂.deep m low (by omega)
      · obtain rfl : jj = start := by omega
        rw [if_neg (by omega)]
        exact ⟨I₂,V₀,P₂,R₀,rfl,done_nil ready₂⟩
    obtain ⟨I₃,V₃,P₃,R₃,sorted,done₃⟩ := left
    have ready₃ := ready_after ready₂ done₃
    obtain ⟨I₄,V₄,grouped,marked,done₄⟩ := close_group ready₃ (show jj ≤ kk - 1 by omega) (by omega) (by
      intro a b low' high' low'' high'' other
      rw [done₃.sameP a (by omega)]
      -- the keys were equal before the part on the left was sorted
      refine ranked_twice ready₂.ranked other (ready₂.deep a (by omega) (by omega)) (ready₂.deep b (by omega) (by omega)) ?_
      rw [same a low' (by omega),same b low'' (by omega)])
    rw [show kk - 1 + 1 = kk by omega] at grouped done₄
    have ready₄ := ready_after ready₃ done₄
    have right : ∃ I V P R, (if (start : Int) + len > kk then split h fuel kk (start + len - kk : Int) I₄ V₄ else
        some (I₄,V₄)) = some (I,V) ∧ Done n h kk (start + len) final I₄ P₃ (cut R₃ jj (kk - 1)) I V P R := by
      by_cases nonempty : kk < start + len
      · obtain ⟨size,whole⟩ : ∃ size, start + len = kk + size := ⟨start + len - kk,by omega⟩
        rw [if_pos (by omega),show (start : Int) + len - kk = (size : Int) by omega]
        rw [whole] at ready₄ ⊢
        exact ih ready₄ (by omega)
      · obtain rfl : kk = start + len := by omega
        rw [if_neg (by push_cast; omega)]
        exact ⟨I₄,V₄,P₃,_,rfl,done_nil ready₄⟩
    obtain ⟨I,V,P,R,sorted',done⟩ := right
    refine ⟨I,V,P,R,?_,done_shuffled shuffled (done_trans done₃ (done_trans done₄ done))⟩
    have first : (jj : Int) - start + start = jj := by omega
    have second : (kk : Int) - jj + jj = kk := by omega
    have group : (kk : Int) - 1 = ((kk - 1 : Nat) : Int) := by omega
    have count : ((kk : Int) - jj).toNat = kk - jj := by omega
    have single : decide ((jj : Int) = ((kk - 1 : Nat) : Int)) = decide (jj = kk - 1) := by rw [decide_eq_decide]; omega
    simp only [bind_eq_bind,pivot,bind_some,counted,first,second,moved,moved',sorted,group,count,
      grouped,single,marked,sorted']

end

end Recovery.Splitting

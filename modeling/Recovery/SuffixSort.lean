import Recovery.Buckets

/-!
`qsufsort` terminates, stays inside its arrays, and leaves a suffix index in every entry of `I`.
-/
namespace Recovery.SuffixSort
open Memory Qsufsort Segments Splitting Buckets List Option

variable {n h : Nat} {I V : Words} {P : Equiv.Perm Nat} {R : Nat → Nat}

/-! ## A pass over the groups -/

private theorem chunks_last {start stop : Nat} (chunks : Chunks n h I P R start stop) {k : Nat} (low : start ≤ k) (high : k < stop) :
    R k < stop := by
  induction chunks with
  | nil => omega
  | @run first r stop sorted nonempty alone rest ih =>
    by_cases here : k < first + r
    · rw [alone k low here]
      exact high
    · exact ih (by omega) high
  | @group first e stop low' lists whole deep rest ih =>
    have := chunks_le rest
    by_cases here : k ≤ e
    · rw [whole k low here]
      omega
    · exact ih (by omega) high
private theorem chunks_deep (ends : Ends n R) {start stop : Nat} (chunks : Chunks n h I P R start stop) (inside : stop ≤ n + 1)
    {i j : Nat} (low : start ≤ i) (high : i < stop) (low' : start ≤ j) (high' : j < stop) (other : i ≠ j) (same : R i = R j) :
    P i + h ≤ n := by
  induction chunks with
  | nil => omega
  | @run first r stop sorted nonempty alone rest ih =>
    have := ends.low i (by omega)
    have := ends.low j (by omega)
    by_cases here : i < first + r
    · by_cases there : j < first + r
      · rw [alone i low here,alone j low' there] at same
        exact absurd same other
      · rw [alone i low here] at same
        omega
    · by_cases there : j < first + r
      · rw [alone j low' there] at same
        omega
      · exact ih inside (by omega) high (by omega) high'
  | @group first e stop first_le lists whole deep rest ih =>
    have := ends.low i (by omega)
    by_cases here : i ≤ e
    · exact deep i low here
    · by_cases there : j ≤ e
      · rw [whole j low' there] at same
        omega
      · exact ih inside (by omega) high (by omega) high'

/-- Where a pass stands: what is behind it, the sorted run that it came through last, and
    what is ahead. -/
structure Passing (n h i len : Nat) (I V : Words) (P : Equiv.Perm Nat) (R : Nat → Nat) : Prop where
  ranked : Ranked n h V P R
  size : I.length = n + 1
  short : len ≤ i
  behind : Chunks n (h + h) I P R 0 (i - len)
  alone : ∀ j, i - len ≤ j → j < i → R j = j
  ahead : Chunks n h I P R i (n + 1)
  sorted : n < h → len = i

theorem markRun_spec {i len : Nat} (passing : Passing n h i len I V P R) :
    ∃ I', markRun I i len = some I' ∧ I'.length = n + 1 ∧ Chunks n (h + h) I' P R 0 i ∧
      (∀ k, i ≤ k → I'[k]? = I[k]?) ∧ (len = i → 0 < len → I'[0]? = some (-(len : Int))) := by
  have upTo := chunks_le passing.ahead
  have short := passing.short
  by_cases none : len = 0
  · refine ⟨I,by simp [markRun,none],passing.size,?_,fun _ _ => rfl,by omega⟩
    have behind := passing.behind
    rwa [none] at behind
  refine ⟨I.set (i - len) (-(len : Int)),?_,by simpa using passing.size,?_,fun k after => ?_,fun all _ => ?_⟩
  · have nonzero : (len : Int) ≠ 0 := by omega
    rw [markRun,if_pos nonzero,show (i : Int) - len = ((i - len : Nat) : Int) by omega]
    exact poke_nat (by rw [passing.size]; omega) _
  · refine chunks_append (chunks_congr passing.behind fun k _ before => ⟨?_,rfl,rfl⟩) ?_
    · rw [getElem?_set_ne (by omega)]
    · refine .run (r := len) ?_ (by omega) (fun j low high => passing.alone j low (by omega)) ?_
      · rw [getElem?_set_self (by rw [passing.size]; omega)]
      · rw [show i - len + len = i by omega]
        exact .nil _
  · rw [getElem?_set_ne (by omega)]
  · rw [all,Nat.sub_self,getElem?_set_self (by rw [passing.size]; omega)]

private theorem groupLoop_spec {fuel i len : Nat}
    (passing : Passing n h i len I V P R) (enough : n + 1 - i < fuel) :
    ∃ I' V' P' R', groupLoop n h fuel i len I V = some (I', V') ∧ Ranked n (h + h) V' P' R' ∧ I'.length = n + 1 ∧
      Chunks n (h + h) I' P' R' 0 (n + 1) ∧ (n < h → I'[0]? = some (-((n : Int) + 1))) := by
  induction fuel generalizing i len I V P R with
  | zero => omega
  | succ fuel ih =>
    unfold groupLoop
    have upTo := chunks_le passing.ahead
    by_cases more : i < n + 1
    · rw [if_pos (by omega)]
      cases passing.ahead with
      | nil => omega
      | @run _ r _ sorted nonempty alone rest =>
        have step : (i : Int) - -(r : Int) = ((i + r : Nat) : Int) := by push_cast; ring
        have longer : (len : Int) - -(r : Int) = ((len + r : Nat) : Int) := by push_cast; ring
        simp only [peek_nat,sorted,bind_eq_bind,bind_some]
        rw [if_pos (by omega),step,longer]
        have short := passing.short
        refine ih ⟨passing.ranked,passing.size,by omega,?_,fun j low high => ?_,rest,fun big => ?_⟩ (by omega)
        · rw [show i + r - (len + r) = i - len by omega]
          exact passing.behind
        · by_cases before : j < i
          · exact passing.alone j (by omega) before
          · exact alone j (by omega) high
        · rw [passing.sorted big]
      | @group _ e _ low lists whole deep rest =>
        have top := chunks_le rest
        obtain ⟨I₁,marked,size,behind,same,-⟩ := markRun_spec passing
        have here : I₁[i]? = some (P i : Int) := by rw [same i le_rfl,lists i le_rfl (by omega)]
        have group : V[P i]? = some (e : Int) := by
          rw [passing.ranked.groups i (by omega),whole i le_rfl low]
        have ready : Ready n h i (i + (e + 1 - i)) e I₁ V P R :=
          ⟨passing.ranked,size,⟨fun k before => chunks_last behind (by omega) before,whole⟩,by omega,by omega,
            fun k low' high' => by rw [same k low',lists k low' (by omega)],fun k low' high' => deep k low' (by omega)⟩
        obtain ⟨I₂,V₂,P₂,R₂,sorted,done⟩ := split_spec ready (show e + 1 - i < e + 1 - i + 1 by omega)
        rw [show i + (e + 1 - i) = e + 1 by omega] at done
        have next : Passing n h (e + 1) 0 I₂ V₂ P₂ R₂ := by
          refine ⟨done.ranked,done.size,by omega,?_,by omega,?_,fun big => ?_⟩
          · exact chunks_append (chunks_congr behind fun k _ before => done.same (by omega)) done.chunks
          · refine chunks_congr rest fun k after _ => ?_
            rw [← same k (by omega)]
            exact done.same (by omega)
          · have := deep i le_rfl low
            omega
        have count : (e : Int) + 1 - i = ((e + 1 - i : Nat) : Int) := by omega
        have step : (i : Int) + ((e + 1 - i : Nat) : Int) = ((e + 1 : Nat) : Int) := by omega
        obtain ⟨I',V',P',R',run,rest'⟩ := ih next (by omega)
        refine ⟨I',V',P',R',?_,rest'⟩
        simp only [peek_nat,lists i le_rfl (by omega),bind_eq_bind,bind_some,marked,here,group]
        rw [if_neg (by omega),count,Int.toNat_natCast,sorted,bind_some,step]
        exact run
    · obtain rfl : i = n + 1 := by omega
      obtain ⟨I',marked,size,chunks,-,run⟩ := markRun_spec passing
      rw [if_neg (by omega)]
      refine ⟨I',V,P,R,by rw [marked]; rfl,?_,size,chunks,fun big => ?_⟩
      · refine ⟨passing.ranked.stays,passing.ranked.size,passing.ranked.groups,passing.ranked.ends,?_⟩
        intro a b small small' other equal
        exact chunks_deep passing.ranked.ends chunks le_rfl (by omega) (by omega) (by omega) (by omega) other equal
      · have all := passing.sorted big
        rw [run all (by omega),all]
        rfl

/-! ## All passes -/

private theorem chunks_sorted (chunks : Chunks n h I P R 0 (n + 1)) (whole : I[0]? = some (-((n : Int) + 1))) :
    ∀ k ≤ n, R k = k := by
  cases chunks with
  | @run _ r _ sorted _ alone _ =>
    rw [sorted] at whole
    have same := some.inj whole
    exact fun k small => alone k (by omega) (by omega)
  | @group _ e _ _ lists _ _ _ =>
    rw [lists 0 le_rfl (by omega)] at whole
    have same := some.inj whole
    omega

/-- Every rank is the rank of one suffix. -/
def Numbered (n : Nat) (V : Words) : Prop :=
  V.length = n + 1 ∧ ∃ P : Equiv.Perm Nat, (∀ k, P k ≤ n ↔ k ≤ n) ∧ ∀ k ≤ n, V[P k]? = some (k : Int)

theorem sortLoop_stops {fuel : Nat} (ranked : Ranked n h V P R)
    (size : I.length = n + 1) (chunks : Chunks n h I P R 0 (n + 1)) (last : I[0]? = some (-((n : Int) + 1))) :
    ∃ I' V', sortLoop n (fuel + 1) h I V = some (I', V') ∧ I'.length = n + 1 ∧ Numbered n V' := by
  refine ⟨I,V,?_,size,ranked.size,P,ranked.stays,fun k small => ?_⟩
  · have start : peek I 0 = some (-((n : Int) + 1)) := by rw [← last]; exact peek_nat I 0
    simp [sortLoop,start]
  · rw [ranked.groups k small,chunks_sorted chunks last k small]

private theorem sortLoop_spec {fuel : Nat} (ranked : Ranked n h V P R)
    (size : I.length = n + 1) (chunks : Chunks n h I P R 0 (n + 1)) (positive : 0 < h) (enough : n + 1 - h + 2 ≤ fuel) :
    ∃ I' V', sortLoop n fuel h I V = some (I', V') ∧ I'.length = n + 1 ∧ Numbered n V' := by
  induction fuel generalizing h I V P R with
  | zero => omega
  | succ fuel ih =>
    by_cases last : I[0]? = some (-((n : Int) + 1))
    · exact sortLoop_stops ranked size chunks last
    obtain ⟨first,found⟩ : ∃ x, I[0]? = some x := ⟨_,getElem?_eq_getElem (show 0 < I.length by omega)⟩
    have start : peek I 0 = some first := by rw [← found]; exact peek_nat I 0
    have other : first ≠ -((n : Int) + 1) := by rintro rfl; exact last found
    have passing : Passing n h 0 0 I V P R :=
      ⟨ranked,size,le_refl _,.nil _,by omega,chunks,fun _ => rfl⟩
    obtain ⟨I₁,V₁,P₁,R₁,run,ranked₁,size₁,chunks₁,done⟩ := groupLoop_spec passing (show n + 1 - 0 < n + 2 by omega)
    have unfolded : sortLoop n (fuel + 1) h I V = sortLoop n fuel ((h + h : Nat) : Int) I₁ V₁ := by
      have run' : groupLoop (n : Int) h (n + 2) 0 0 I V = some (I₁,V₁) := by exact_mod_cast run
      rw [sortLoop,start]
      simp only [bind_eq_bind,bind_some,if_pos other,Int.toNat_natCast,run']
      rfl
    rw [unfolded]
    by_cases big : n < h
    · obtain ⟨fuel,rfl⟩ : ∃ f, fuel = f + 1 := ⟨fuel - 1,by omega⟩
      exact sortLoop_stops ranked₁ size₁ chunks₁ (done big)
    · exact ih ranked₁ size₁ chunks₁ (by omega) (by omega)

/-- Each entry of `V` puts its index into the slot it names, if no two name the same one. -/
theorem invertLoop_places {rest : Words} {i : Nat} (inside : ∀ v ∈ rest, ∃ k : Nat, v = k ∧ k < I.length)
    (apart : rest.Nodup) :
    ∃ I', invertLoop rest i I = some I' ∧ I'.length = I.length ∧ (∀ k : Nat, (k : Int) ∉ rest → I'[k]? = I[k]?) ∧
      ∀ j k : Nat, rest[j]? = some (k : Int) → I'[k]? = some ((i + j : Nat) : Int) := by
  induction rest generalizing i I with
  | nil => exact ⟨I,rfl,rfl,fun _ _ => rfl,fun j k found => by simp at found⟩
  | cons v rest ih =>
    obtain ⟨m,rfl,low⟩ := inside v mem_cons_self
    obtain ⟨fresh,later⟩ := nodup_cons.mp apart
    obtain ⟨I',run,size,kept,placed⟩ := ih (i := i + 1) (I := I.set m i)
      (fun v member => by simpa using inside v (mem_cons_of_mem _ member)) later
    refine ⟨I',?_,by simpa using size,fun k out => ?_,fun j k found => ?_⟩
    · simp only [invertLoop,poke_nat low,bind_eq_bind,bind_some]
      exact_mod_cast run
    · obtain ⟨other,out⟩ := not_or.mp (mt mem_cons.mpr out)
      rw [kept k out,getElem?_set_ne (fun same => other (by rw [same]))]
    · cases j with
      | zero =>
        obtain rfl : m = k := by simpa using found
        rw [kept m fresh,getElem?_set_self low,Nat.add_zero]
      | succ j =>
        rw [placed j k (by simpa using found)]
        congr 2
        omega

/-! ## `qsufsort` -/

private theorem buckets_ready {old : Bytes} (size : I.length = old.length + 1) (size' : V.length = old.length + 1) :
    ∃ buckets I₁ I₂, insertLoop old 0 (fillBuckets old) I = some (buckets, I₁) ∧ I₁.length = old.length + 1 ∧
      singleLoop buckets (List.range' 1 255) (I₁.set 0 old.length) = some I₂ ∧ I₂.length = old.length + 1 ∧
      ∃ P R, Ranked old.length 1 ((old.map (bucketOf buckets) ++ V.drop old.length).set old.length 0) P R ∧
        Chunks old.length 1 (I₂.set 0 (-1)) P R 0 (old.length + 1) := by
  obtain ⟨buckets,I₁,run,holds,size₁,lists⟩ := insertLoop_spec [] old (fillBuckets old)
    I (holds_congr (fillBuckets_holds old) fun c _ => by simp) size (by simp)
  rw [nil_append] at holds lists
  have counted : Holds buckets fun c => less old (c + 1) := by
    refine holds_congr holds fun c inside => ?_
    have step := less_succ old (UInt8.ofNat c)
    rw [UInt8.toNat_ofNat_of_lt' inside] at step
    rw [step]
    rfl
  obtain ⟨I₂,run',size₂,marks,others⟩ := singleLoop_spec counted (range' 1 255)
    (fun c member => by rw [mem_range'_1] at member; omega) (I := I₁.set 0 old.length) (by simp [size₁,size])
  simp only [length_set] at size₂
  obtain ⟨P,slotted⟩ := slotted_exists old
  refine ⟨buckets,I₁,I₂,run,size₁.trans size,run',size₂.trans (size₁.trans size),P,lastOf old P,
    ranked_lastOf slotted ?_ ?_ fun j inside => ?_,?_⟩
  · simp [size']
  · rw [getElem?_set_self (by simp [size'])]
  · rw [getElem?_set_ne (by omega),getElem?_append_left (by simpa using inside)]
    simp [inside,holds_bucketOf counted,byteOf]
  have whole := chunks_buckets slotted (I := I₂.set 0 (-1)) (fun c small => ?_) (le_refl 256)
  · rw [less_full] at whole
    refine .run (r := 1) (by rw [getElem?_set_self (by omega)]; rfl) (by omega) (fun j _ high => ?_) whole
    rw [show j = 0 by omega]
    rfl
  · by_cases single : 1 ≤ c ∧ less old (c + 1) = less old c + 1
    · refine .inl ⟨?_,single.2⟩
      rw [getElem?_set_ne (by omega)]
      exact marks c (by rw [mem_range'_1]; omega) single.2
    refine .inr fun k low high => ?_
    have upTo := less_le old (c + 1)
    obtain ⟨inside,place⟩ := slotted_slot slotted (show 0 < k by omega) (by omega)
    rw [getElem?_set_ne (by omega),others k,getElem?_set_ne (by omega)]
    · have found := lists _ inside
      rwa [place] at found
    · -- a marked bucket is another one
      intro d member alone same
      rw [mem_range'_1] at member
      have bytes := slot_byte (c := c) inside (by omega) (by omega)
      have bytes' := slot_byte (c := d) inside (by omega) (by omega)
      exact single ⟨by omega,by rw [← bytes,bytes']; exact alone⟩

theorem qsufsort_lists {old : Bytes} (size : I.length = old.length + 1) (size' : V.length = old.length + 1) :
    ∃ I' Q, qsufsort I V old = some I' ∧ I'.length = old.length + 1 ∧
      (∀ k, (Q : Equiv.Perm Nat) k ≤ old.length ↔ k ≤ old.length) ∧ ∀ k ≤ old.length, I'[k]? = some (Q k : Int) := by
  obtain ⟨buckets,I₁,I₂,inserted,size₁,marked,size₂,P,R,ranked,chunks⟩ := buckets_ready size size'
  obtain ⟨I₃,V₃,sorted,size₃,sizeV,Q,stays,numbered⟩ := sortLoop_spec ranked (by simpa using size₂) chunks
    (by omega) (show old.length + 1 - 1 + 2 ≤ old.length + 3 by omega)
  have rank (a : Nat) (inside : a < V₃.length) : V₃[a] = Q.symm a ∧ Q.symm a ≤ old.length := by
    have small : Q.symm a ≤ old.length := by
      rw [← stays,Q.apply_symm_apply]
      omega
    have found := numbered _ small
    rw [Q.apply_symm_apply,getElem?_eq_getElem inside] at found
    exact ⟨some.inj found,small⟩
  have listed (v : Int) (member : v ∈ V₃) : ∃ k : Nat, v = k ∧ k < I₃.length := by
    obtain ⟨a,inside,rfl⟩ := mem_iff_getElem.mp member
    obtain ⟨same,small⟩ := rank a inside
    exact ⟨_,same,by omega⟩
  have apart : V₃.Nodup := by
    refine nodup_iff_injective_getElem.mpr fun a b same => Fin.ext (Q.symm.injective ?_)
    simp only [(rank _ a.2).1,(rank _ b.2).1] at same
    exact_mod_cast same
  obtain ⟨I₄,inverted,size₄,-,placed⟩ := invertLoop_places (i := 0) listed apart
  refine ⟨I₄,Q,?_,size₄.trans size₃,stays,fun k small => ?_⟩
  · rw [qsufsort]
    simp only [bind_eq_bind,inserted,bind_some]
    rw [show (0 : Int) = ((0 : Nat) : Int) from rfl,poke_nat (by omega),bind_some,poke_nat (by simp [size']),
      bind_some]
    rw [marked,bind_some,poke_nat (by omega),bind_some]
    have sorted' : sortLoop (old.length : Int) (old.length + 3) 1 (I₂.set 0 (-1))
      ((old.map (bucketOf buckets) ++ V.drop old.length).set old.length ((0 : Nat) : Int)) = some (I₃,V₃) := by
      exact_mod_cast sorted
    rw [sorted',bind_some]
    exact inverted
  · rw [placed (Q k) k (numbered k small),Nat.zero_add]

theorem qsufsort_spec {old : Bytes} (size : I.length = old.length + 1) (size' : V.length = old.length + 1) :
    ∃ I', qsufsort I V old = some I' ∧ I'.length = old.length + 1 ∧
      ∀ k ≤ old.length, ∃ a : Nat, a ≤ old.length ∧ I'[k]? = some (a : Int) := by
  obtain ⟨I',Q,run,length,stays,lists⟩ := qsufsort_lists size size'
  exact ⟨I',run,length,fun k small => ⟨Q k,(stays k).mpr small,lists k small⟩⟩

/-- Whatever the arrays hold when they are allocated, `I` lists every suffix exactly once. -/
theorem qsufsort_permutes {old : Bytes} (size : I.length = old.length + 1) (size' : V.length = old.length + 1) :
    ∃ I', qsufsort I V old = some I' ∧ I'.Perm ((range (old.length + 1)).map Nat.cast) := by
  obtain ⟨I',Q,run,length,stays,lists⟩ := qsufsort_lists size size'
  have whole : I' = ((range (old.length + 1)).map Q).map Nat.cast := by
    refine ext_getElem? fun k => ?_
    by_cases small : k ≤ old.length
    · simp [lists k small,show k < old.length + 1 by omega]
    · rw [getElem?_eq_none (by omega),getElem?_eq_none (by simp; omega)]
  refine ⟨I',run,whole ▸ Perm.map _ ?_⟩
  refine (perm_ext_iff_of_nodup (nodup_range.map Q.injective) nodup_range).mpr fun a => ?_
  simp only [List.mem_map,mem_range,Nat.lt_succ_iff]
  refine ⟨fun ⟨k,small,same⟩ => same ▸ (stays k).mpr small,fun small => ⟨Q.symm a,?_,Q.apply_symm_apply a⟩⟩
  rwa [← stays,Q.apply_symm_apply]

theorem qsufsort_permutes_banana :
    ∃ I', qsufsort (replicate 7 9) (replicate 7 (-1)) [98,97,110,97,110,97] = some I' ∧ I'.Perm [0,1,2,3,4,5,6] :=
  qsufsort_permutes rfl rfl

end Recovery.SuffixSort

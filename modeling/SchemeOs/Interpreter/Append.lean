import Mathlib.Data.List.Forall2
import SchemeOs.Interpreter.AppendLoop

/-!
# Interpreter/Append — the lists that `append` joins

`append` is for one list with the elements of all its arguments.  Since the first list is copied
twice and the last argument not at all, it meets that only where the elements happen to be the same:
for one argument that is `()`, say, or when the last list comes to the last argument by itself.
-/

namespace SchemeOs

open Traced Builtins

variable {m m' : Memory} {s r x : Ptr} {us : List Ptr} {t : SchemeType}

namespace Append

/-! ## The property -/

/-- The lists are proper, and have the elements `xss`. -/
def Proper (H : Heap) (heads : List Ptr) (xss : List (List Ptr)) : Prop :=
  List.Forall₂ (fun p xs => H.Spine p xs schemeNull) heads xss

/-- `append` returns `r`. -/
def Returns (beyond : ℕ → Ptr) (m : Memory) (args : List Ptr) (r : Ptr) (m' : Memory) : Prop :=
  Ends (fun n => (append n args.length (Primitive.words args beyond)).result) m r m'

/-- **What `append` is for**: without arguments it returns the empty list.  With proper lists and a
last argument it returns a list with their elements that goes on with the last argument, and no
object is changed; with others it returns `schemeVoid`. -/
def Meets (beyond : ℕ → Ptr) (m : Memory) (args : List Ptr) : Prop :=
  (args = [] → ∃ m', Returns beyond m args schemeNull m') ∧
    ∀ heads last, args = heads ++ [last] →
      (∀ xss, Proper m.heap heads xss → ∃ r m', Returns beyond m args r m' ∧
        m.heap.Sub m'.heap ∧ m'.heap.Spine r xss.flatten last) ∧
      ((¬∃ xss, Proper m.heap heads xss) → ∃ m', Returns beyond m args schemeVoid m')

/-- The elements of the first list, of all lists but the last and then those on the way from the
last list to `last` are those of all lists; and only the last list is empty, if any. -/
def Joins (H : Heap) (heads : List Ptr) (last : Ptr) (xss : List (List Ptr)) : Prop :=
  heads = [] ∧ last = schemeNull ∨
    ∃ fs u yss zs ws, heads = fs ++ [u] ∧ xss = yss ++ [zs] ∧ (∀ ys ∈ yss, ys ≠ []) ∧
      H.Spine u ws last ∧ xss.headD [] ++ yss.flatten ++ ws = xss.flatten

/-- The arguments with which `append` does what it is for. -/
def Fits (H : Heap) (args : List Ptr) : Prop :=
  ∀ heads last, args = heads ++ [last] →
    (∀ xss, Proper H heads xss → Joins H heads last xss) ∧
    ((¬∃ xss, Proper H heads xss) → ∃ s, heads.head? = some s ∧ Voids H heads s)

/-! ## Proper lists -/

section Proper

variable {H H' : Heap} {heads : List Ptr} {xss : List (List Ptr)} {ys zs : List Ptr} {u : Ptr}

/-- The last of some proper lists. -/
theorem Proper.snoc (h : Proper H heads xss) (hne : heads ≠ []) :
    ∃ fs u yss zs, heads = fs ++ [u] ∧ xss = yss ++ [zs] ∧ Proper H fs yss ∧
      H.Spine u zs schemeNull := by
  have hxss : xss ≠ [] := by
    rintro rfl
    exact hne (List.forall₂_nil_right_iff.mp h)
  obtain ⟨yss, zs, rfl⟩ : ∃ yss zs, xss = yss ++ [zs] :=
    ⟨_, _, (List.dropLast_append_getLast hxss).symm⟩
  have htake := List.forall₂_take_append heads yss [zs] h
  have hdrop := List.forall₂_drop_append heads yss [zs] h
  obtain ⟨u, us, hu, hus, heq⟩ := List.forall₂_cons_right_iff.mp hdrop
  obtain rfl := List.forall₂_nil_right_iff.mp hus
  exact ⟨heads.take yss.length, u, yss, zs, by rw [← heq, List.take_append_drop], rfl, htake, hu⟩

/-- What leads on from a proper list after more objects have been made did so before. -/
theorem spine_of_sub (hsub : H.Sub H') (hnull : H'.type? schemeNull ≠ some .pair)
    (h : H.Spine u zs schemeNull) (h' : H'.Spine u ys p) : H.Spine u ys p := by
  rcases h'.compare (h.sub hsub) with ⟨w, rfl, -⟩ | ⟨x, w, -, hpair, -⟩
  · obtain ⟨q, hq, -⟩ := h.of_append
    exact (hq.sub hsub).unique h' ▸ hq
  · exact absurd hpair hnull

/-- A list that is no pair is empty. -/
theorem ne_nil_of_obj? (hm : HasConstants H) (ho : H.obj? u = some ⟨t, .pair x (some r)⟩)
    (h : H.Spine u ys schemeNull) : ∃ zs, ys = x :: zs ∧ H.Spine r zs schemeNull := by
  cases ys with
  | nil =>
    obtain ⟨t', hnull, -⟩ := hm.null
    obtain rfl : u = schemeNull := h
    rw [hnull] at ho
    cases ho
  | cons y zs =>
    obtain ⟨r', ho', hr'⟩ := h.pair
    rw [ho] at ho'
    cases ho'
    exact ⟨zs, rfl, hr'⟩

theorem Listed.ne_nil (hm : HasConstants H) (h : Listed H us s) (hp : Proper H us xss) :
    ∀ ys ∈ xss.dropLast, ys ≠ [] := by
  induction us generalizing s xss with
  | nil => exact h.elim
  | cons u us ih =>
    obtain ⟨ys, yss, hu, hus, rfl⟩ := List.forall₂_cons_left_iff.mp hp
    rcases h.2 with rfl | ⟨t, x, r, ho, hlisted⟩
    · obtain rfl := List.forall₂_nil_left_iff.mp hus
      exact fun _ h => nomatch h
    · obtain ⟨zs, rfl, -⟩ := ne_nil_of_obj? hm ho hu
      cases yss with
      | nil => exact fun _ h => nomatch h
      | cons zs' yss =>
        rw [List.dropLast_cons_cons, List.forall_mem_cons]
        exact ⟨List.cons_ne_nil x zs, ih hlisted hus⟩

/-- With proper lists nothing breaks off. -/
theorem not_voids (hm : HasConstants H) (hnull : H.type? schemeNull ≠ some .pair)
    (h : Voids H us s) (hs : H.Spine s ys schemeNull) (hp : Proper H us xss) : False := by
  induction us generalizing s xss ys with
  | nil => exact h
  | cons u us ih =>
    obtain ⟨zs, yss, hu, hus, rfl⟩ := List.forall₂_cons_left_iff.mp hp
    rcases h with ⟨xs, q, t, hq, htype, ht, hne⟩ | ⟨-, -, t, x, r, ho, hvoids⟩
    · rcases hq.compare hs with ⟨w, rfl, hw⟩ | ⟨x, w, -, hpair, -⟩
      · cases w with
        | nil => exact hne hw
        | cons x w => exact ht (Option.some.inj (htype.symm.trans hw.1))
      · exact hnull hpair
    · obtain ⟨zs, rfl, hr⟩ := ne_nil_of_obj? hm ho hu
      exact ih hvoids hr hus

end Proper

/-! ## When the lists are joined -/

section Meets

variable {beyond : ℕ → Ptr} {heads args : List Ptr} {xss : List (List Ptr)} {v last : Ptr}
  {m' : Memory}

theorem holds_words (beyond : ℕ → Ptr) (heads : List Ptr) (last : Ptr) :
    Holds (Primitive.words (heads ++ [last]) beyond) 0 heads := by
  intro i u hu
  have hlt := (List.getElem?_eq_some_iff.mp hu).1
  rw [Nat.zero_add, Primitive.words, List.getD_eq_getElem?_getD, List.getElem?_append_left hlt, hu]
  rfl

/-- The call of `append` is that of its loop, from the first list on. -/
theorem result_append (n argc : ℕ) (argv : ℕ → Ptr) : (append n argc argv).result =
    (appendFrom argv n argc 0 schemeNull schemeNull (argv 0)).result := by
  rw [append, result_bind, Builtins.arg, result_bind, result_emit, pure_bind, result_pure,
    pure_bind]

theorem returns_iff : Returns beyond m (v :: heads ++ [last]) r m' ↔
    Ends (fun n => (appendFrom (Primitive.words (v :: heads ++ [last]) beyond) n
      ((v :: heads).length + 1) 0 schemeNull schemeNull v).result) m r m' := by
  have hlen : (v :: heads ++ [last]).length = (v :: heads).length + 1 := by
    rw [List.length_append, List.length_singleton]
  rw [Returns, hlen]
  exact ⟨.congr fun n => (result_append n _ _).symm, .congr fun n => result_append n _ _⟩

/-- The first list is proper with the first elements. -/
theorem Proper.head {H : Heap} (h : Proper H (v :: heads) xss) :
    H.Spine v (xss.headD []) schemeNull := by
  obtain ⟨ys, yss, hv, -, rfl⟩ := List.forall₂_cons_left_iff.mp h
  exact hv

theorem Proper.and_ne_nil {H : Heap} {fs : List Ptr} (h : Proper H fs xss)
    (hne : ∀ ys ∈ xss, ys ≠ []) :
    List.Forall₂ (fun f ys => H.Spine f ys schemeNull ∧ ys ≠ []) fs xss := by
  change List.Forall₂ _ _ _ at h
  induction h with
  | nil => exact .nil
  | cons hf hfs ih =>
    rw [List.forall_mem_cons] at hne
    exact .cons ⟨hf, hne.1⟩ (ih hne.2)

/-- Proper lists are copied up to the last of them, and the first one twice. -/
theorem returns_lists (hm : HasConstants m.heap) (hp : Proper m.heap (v :: heads) xss)
    {fs : List Ptr} {yss : List (List Ptr)} {u : Ptr} (hheads : v :: heads = fs ++ [u])
    (hfs : Proper m.heap fs yss) (hne : ∀ ys ∈ yss, ys ≠ []) :
    ∃ r m', Returns beyond m (v :: heads ++ [last]) r m' ∧ m.heap.Sub m'.heap ∧
      (since m m').Spine r (xss.headD [] ++ yss.flatten) u := by
  have hargv : Holds (Primitive.words (v :: heads ++ [last]) beyond) 0 (fs ++ [u]) := by
    rw [← hheads]
    exact holds_words beyond (v :: heads) last
  have hlen : (v :: heads).length + 1 = fs.length + 2 := by
    rw [hheads, List.length_append, List.length_singleton]
  obtain ⟨r, m', hends, hsub, hspine⟩ := ends_lists hm (hfs.and_ne_nil hne)
    (Copied.init m schemeNull) hp.head hargv
  refine ⟨r, m', returns_iff.mpr ?_, hsub, hspine⟩
  rw [hlen]
  exact hends

variable (hm : HasConstants m.heap) (hclosed : Closed m.heap)
  (hargs : ∀ p ∈ v :: heads ++ [last], ∃ t, m.heap.type? p = some t)

include hm hclosed hargs

/-- When `append` returns, something was no list, or the lists before the last one are not empty. -/
theorem of_returns (hret : Returns beyond m (v :: heads ++ [last]) r m') :
    Voids m.heap (v :: heads) v ∧ r = schemeVoid ∨
      Listed m.heap (v :: heads) v ∧ r ≠ schemeVoid := by
  obtain ⟨N, hN⟩ := returns_iff.mp hret
  obtain ⟨t, ht⟩ := hargs v List.mem_cons_self
  have hus : ∀ u ∈ v :: heads, ∃ t, m.heap.type? u = some t := fun u hu =>
    hargs u (List.mem_append_left [last] hu)
  refine (of_run hm hclosed (Copied.init m schemeNull).toKept ht
    (holds_words beyond (v :: heads) last)
    hus (List.cons_ne_nil v heads) (hN N le_rfl)).imp_right fun ⟨hlisted, hr⟩ => ⟨hlisted, ?_⟩
  rintro rfl
  rcases hr with hnone | ⟨-, rfl, heq⟩
  · rw [hm.void] at hnone
    cases hnone
  · cases heq

/-- Of proper lists: those that `append` joins. -/
theorem joins_iff (hp : Proper m.heap (v :: heads) xss) :
    (∃ r m', Returns beyond m (v :: heads ++ [last]) r m' ∧ m.heap.Sub m'.heap ∧
      m'.heap.Spine r xss.flatten last) ↔ Joins m.heap (v :: heads) last xss := by
  obtain ⟨fs, u, yss, zs, hheads, rfl, hfs, hu⟩ := hp.snoc (List.cons_ne_nil v heads)
  constructor
  · rintro ⟨r, m', hret, hsub, hspine⟩
    have hnull := Primitive.null_ne_pair hm
    have hnull' : m'.heap.type? schemeNull ≠ some .pair := by
      obtain ⟨t, ht, -⟩ := hm.null
      have htype := Heap.type?_of_obj? ht
      rw [hsub.type? htype, ← htype]
      exact hnull
    have hne : ∀ ys ∈ yss, ys ≠ [] := by
      rcases of_returns hm hclosed hargs hret with ⟨hvoids, -⟩ | ⟨hlisted, -⟩
      · exact (not_voids hm hnull hvoids hp.head hp).elim
      · have := hlisted.ne_nil hm hp
        rwa [List.dropLast_concat] at this
    obtain ⟨r₂, m₂, hret₂, -, hspine₂⟩ := returns_lists hm hp hheads hfs hne
    obtain ⟨rfl, rfl⟩ := hret.unique hret₂
    refine .inr ⟨fs, u, yss, zs, ?_⟩
    rcases (hspine₂.sub since_sub).compare hspine with ⟨ws, heq, hws⟩ | ⟨x, ws, heq, -⟩
    · exact ⟨ws, hheads, rfl, hne, spine_of_sub hsub hnull' hu hws, heq.symm⟩
    · -- the last argument would be one of the new pairs
      rw [heq] at hspine₂
      obtain ⟨q, hq, hlast⟩ := hspine₂.of_append
      obtain rfl := (hq.sub since_sub).unique hspine
      obtain ⟨s, ho, -⟩ := hlast.pair
      obtain ⟨t, ht⟩ := hargs q (List.mem_append_right _ List.mem_cons_self)
      cases q with
      | char c => cases ho
      | obj i =>
        obtain ⟨o, ho', -⟩ := Option.map_eq_some_iff.mp ht
        exact (Option.some_ne_none o (ho'.symm.trans (of_obj?_since ho).1)).elim
  · rintro (⟨h, -⟩ | ⟨fs', u', yss', zs', ws, hheads', hxss, hne, hws, heq⟩)
    · cases h
    · obtain ⟨rfl, hzs⟩ := List.append_inj' hxss rfl
      obtain ⟨rfl, hu'⟩ := List.append_inj' (hheads.symm.trans hheads') rfl
      obtain rfl := List.singleton_inj.mp hu'
      obtain ⟨r, m', hret, hsub, hspine⟩ := returns_lists hm hp hheads hfs hne
      refine ⟨r, m', hret, hsub, ?_⟩
      rw [← heq]
      exact (hspine.sub since_sub).append (hws.sub hsub)

/-- Of other arguments: those for which `schemeVoid` is returned. -/
theorem voids_iff : (∃ m', Returns beyond m (v :: heads ++ [last]) schemeVoid m') ↔
    Voids m.heap (v :: heads) v := by
  constructor
  · rintro ⟨m', hret⟩
    rcases of_returns hm hclosed hargs hret with ⟨hvoids, -⟩ | ⟨-, hne⟩
    · exact hvoids
    · exact absurd rfl hne
  · intro hvoids
    obtain ⟨m', hends⟩ := ends_void hm hvoids (Copied.init m schemeNull).toKept
      (holds_words beyond (v :: heads) last)
    exact ⟨m', returns_iff.mpr hends⟩

omit hm hclosed hargs

/-- With one argument or none the empty list is returned. -/
theorem returns_of_le (h : args.length ≤ 1) : Returns beyond m args schemeNull m :=
  .congr (fun n => result_append n _ _) (ends_done h)

/-- **When `append` does what it is for**: the arguments are such that it makes no difference that
the first list is copied twice and the last argument left out. -/
theorem meets_iff (hm : HasConstants m.heap) (hclosed : Closed m.heap)
    (hargs : ∀ p ∈ args, ∃ t, m.heap.type? p = some t) (beyond : ℕ → Ptr) :
    Meets beyond m args ↔ Fits m.heap args := by
  constructor
  · rintro ⟨-, h⟩ heads last rfl
    obtain ⟨hproper, hother⟩ := h heads last rfl
    cases heads with
    | nil =>
      refine ⟨fun xss hp => .inl ⟨rfl, ?_⟩, fun hno => absurd ⟨[], .nil⟩ hno⟩
      obtain ⟨r, m', hret, -, hspine⟩ := hproper [] .nil
      obtain ⟨rfl, -⟩ := hret.unique (returns_of_le (by simp))
      exact Eq.symm hspine
    | cons v heads =>
      exact ⟨fun xss hp => (joins_iff hm hclosed hargs hp).mp (hproper xss hp),
        fun hno => ⟨v, rfl, (voids_iff hm hclosed hargs).mp (hother hno)⟩⟩
  · intro h
    refine ⟨fun hnil => ⟨m, returns_of_le (by simp [hnil])⟩, ?_⟩
    rintro heads last rfl
    obtain ⟨hproper, hother⟩ := h heads last rfl
    cases heads with
    | nil =>
      refine ⟨fun xss hp => ?_, fun hno => absurd ⟨[], .nil⟩ hno⟩
      obtain rfl := List.forall₂_nil_left_iff.mp hp
      rcases hproper [] hp with ⟨-, rfl⟩ | ⟨fs, u, _, _, _, heq, -⟩
      · exact ⟨schemeNull, m, returns_of_le (by simp), .refl, rfl⟩
      · simp at heq
    | cons v heads =>
      refine ⟨fun xss hp => (joins_iff hm hclosed hargs hp).mpr (hproper xss hp), fun hno => ?_⟩
      obtain ⟨s, hs, hvoids⟩ := hother hno
      obtain rfl : v = s := Option.some.inj hs
      exact (voids_iff hm hclosed hargs).mpr hvoids

end Meets

/-- A memory with two lists of one element. -/
def twoLists : Memory :=
  (Memory.init.push ⟨.pair, .pair schemeTrue (some schemeNull)⟩).push
    ⟨.pair, .pair schemeFalse (some schemeNull)⟩

theorem hasConstants_twoLists : HasConstants twoLists.heap :=
  ⟨⟨.null, rfl, .inl rfl⟩, rfl, rfl, rfl⟩

theorem closed_twoLists : Closed twoLists.heap := by
  intro p r h
  cases p with
  | char c => cases h
  | obj i =>
    rcases i with _ | _ | _ | _ | _ | _ | _ | _ | i
    all_goals cases h
    all_goals exact ⟨.null, rfl⟩

theorem meets_iff_twice : Meets (fun _ => schemeNull) twoLists [.obj 6, .obj 6] ↔
    Fits twoLists.heap [.obj 6, .obj 6] :=
  meets_iff hasConstants_twoLists closed_twoLists (by simp; exact ⟨.pair, rfl⟩) _

/-- Of two lists the second one is left out. -/
theorem not_meets : ¬∀ (beyond : ℕ → Ptr) (m : Memory) (args : List Ptr), HasConstants m.heap →
    Closed m.heap → (∀ p ∈ args, ∃ t, m.heap.type? p = some t) → Meets beyond m args := by
  intro h
  have hargs : ∀ p ∈ Ptr.obj 6 :: [] ++ [.obj 7], ∃ t, twoLists.heap.type? p = some t := by
    intro p hp
    simp only [List.nil_append, List.cons_append, List.mem_cons, List.not_mem_nil, or_false] at hp
    rcases hp with rfl | rfl <;> exact ⟨.pair, rfl⟩
  have hp : Proper twoLists.heap [.obj 6] [[schemeTrue]] :=
    .cons ⟨rfl, rfl, schemeNull, rfl, rfl⟩ .nil
  have hmeets := h (fun _ => schemeNull) twoLists [.obj 6, .obj 7] hasConstants_twoLists
    closed_twoLists hargs
  have hjoins := (joins_iff hasConstants_twoLists closed_twoLists hargs hp).mp
    ((hmeets.2 [.obj 6] (.obj 7) rfl).1 _ hp)
  rcases hjoins with ⟨h, -⟩ | ⟨fs, u, yss, zs, ws, hheads, hxss, -, hws, heq⟩
  · cases h
  · obtain ⟨rfl, hu⟩ := List.append_inj' (show [] ++ [.obj 6] = fs ++ [u] from hheads) rfl
    obtain ⟨rfl, -⟩ := List.append_inj' (show [] ++ [[schemeTrue]] = yss ++ [zs] from hxss) rfl
    obtain rfl := List.singleton_inj.mp hu
    obtain rfl : ws = [] := by simpa using heq
    cases hws

end Append

end SchemeOs

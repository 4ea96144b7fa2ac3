import Wtools.Byteorder
import Mathlib.Algebra.Group.Int.Defs

/-!
# Comparing JSON trees

`json_tools_node_compare` of `bkv_json_tools.c`, on the trees that the parser builds. Integers are
compared as doubles, which are taken as the integers they stand for. The loop over an array runs up
to `u.object.len`, a word of the node that belongs to no field of an array; what the parser leaves
there is the parameter `spare`.
-/

namespace Wtools

/-- A string that ends with its first NUL. -/
structure CString where
  bytes : List UInt8
  nul : 0 ∉ bytes
  deriving DecidableEq

/-- `yajl_val` -/
inductive YajlVal where
  | string (s : CString)
  | number (i : Int64)
  | true
  | false
  | null
  | object (members : List (CString × YajlVal))
  | array (values : List YajlVal)

/-- The difference of the first two bytes that are not equal. -/
def strcmpBytes : List UInt8 → List UInt8 → Int
  | [], [] => 0
  | [], d :: _ => -d.toNat
  | c :: _, [] => c.toNat
  | c :: cs, d :: ds => if c = d then strcmpBytes cs ds else c.toNat - d.toNat

def strcmp (s t : CString) : Int := strcmpBytes s.bytes t.bytes

/-- The double next to an integer, ties to even. -/
def nearestDouble (n : Int) : Int :=
  if n.natAbs < 2 ^ 53 then n
  else
    let unit := 2 ^ (n.natAbs.log2 - 52)
    let low := n.natAbs / unit
    let rest := n.natAbs % unit
    let up : Bool := unit < 2 * rest ∨ unit = 2 * rest ∧ low % 2 = 1
    n.sign * ((if up then low + 1 else low) * unit : Nat)

/-- The conversion of a double to an `int`, as it is made on x86-64. -/
def intOfDouble (d : Int) : Int := if -2 ^ 31 ≤ d ∧ d < 2 ^ 31 then d else -2 ^ 31

/-- `!abs(a->u.number.d - b->u.number.d)<0.001`. The negation binds first, and of 0 and 1 only 0 is
below 0.001. -/
def decimalsDiffer (i j : Int64) : Bool :=
  let l_abs := (intOfDouble (nearestDouble (nearestDouble i.toInt - nearestDouble j.toInt))).natAbs
  1000 * (if l_abs = 0 then 1 else 0) < 1

/-- A read behind the members or the elements of a node. -/
inductive Overrun where
  | member (i : Nat)
  | element (i : Nat)
  deriving DecidableEq

mutual

/-- The result of `strcmp` on two strings is printed and not returned. -/
def jsonToolsNodeCompare (spare : Nat) : YajlVal → YajlVal → Except Overrun Int
  | .string _, .string _ => .ok 0
  | .number i, .number j => if decimalsDiffer i j then .ok (-1) else .ok 0
  | .object ms, .object ns => jsonToolsMembersCompare spare 0 ms ns
  | .array xs, .array ys => jsonToolsElementsCompare spare spare xs ys
  | .true, .true => .ok 0
  | .false, .false => .ok 0
  | .null, .null => .ok 0
  | _, _ => .ok (-1)
  termination_by structural a => a

/-- The loop over the members of an object, from the `i`-th on. -/
def jsonToolsMembersCompare (spare i : Nat) :
    List (CString × YajlVal) → List (CString × YajlVal) → Except Overrun Int
  | [], _ => .ok 0
  | _ :: _, [] => .error (.member i)
  | (k, x) :: ms, (l, y) :: ns =>
    if strcmp k l ≠ 0 then .ok (-1)
    else do
      let r ← jsonToolsNodeCompare spare x y
      if r ≠ 0 then return -1
      jsonToolsMembersCompare spare (i + 1) ms ns
  termination_by structural ms => ms

/-- The loop over the elements of an array, with `n` turns to go. -/
def jsonToolsElementsCompare (spare : Nat) :
    Nat → List YajlVal → List YajlVal → Except Overrun Int
  | 0, _, _ => .ok 0
  | n + 1, x :: xs, y :: ys => do
    let r ← jsonToolsNodeCompare spare x y
    if r ≠ 0 then return -1
    jsonToolsElementsCompare spare n xs ys
  | n + 1, _, _ => .error (.element (spare - (n + 1)))
  termination_by structural _ xs => xs

end

section Places

/-- `yajl_type` -/
inductive YajlType where
  | string
  | number
  | object
  | array
  | true
  | false
  | null
  deriving DecidableEq

def YajlVal.type : YajlVal → YajlType
  | .string _ => .string
  | .number _ => .number
  | .object _ => .object
  | .array _ => .array
  | .true => .true
  | .false => .false
  | .null => .null

/-- A node of a tree, with its key if it is a member of an object. -/
abbrev JsonNode := Option CString × YajlVal

/-- The members of an object or the elements of an array. -/
def YajlVal.kids : YajlVal → List JsonNode
  | .object ms => ms.map fun m => (some m.1, m.2)
  | .array xs => xs.map fun x => (none, x)
  | _ => []

/-- The turns of the loop that compares a node with another. -/
def YajlVal.turns (spare : Nat) : YajlVal → Nat
  | .object ms => ms.length
  | .array _ => spare
  | _ => 0

/-- The node at a place below another. A place is given by the positions that lead to it. -/
def JsonNode.at : JsonNode → List Nat → Option JsonNode
  | e, [] => some e
  | e, i :: p => e.2.kids[i]?.bind fun e' => JsonNode.at e' p

/-- The loops over the first tree come to a place, unless they end before. -/
def JsonNode.Leads (spare : Nat) : JsonNode → List Nat → Prop
  | _, [] => True
  | e, i :: p => i < e.2.turns spare ∧
      match e.2.kids[i]? with
      | some e' => JsonNode.Leads spare e' p
      | none => p = []

/-- Two nodes that the comparison tells apart by their keys, their types or their doubles. -/
def Unlike (e f : JsonNode) : Prop :=
  e.1 ≠ f.1 ∨ e.2.type ≠ f.2.type ∨
    ∃ i j, e.2 = .number i ∧ f.2 = .number j ∧ nearestDouble i.toInt ≠ nearestDouble j.toInt

/-- Both trees have a node at the place. -/
def Present (e f : JsonNode) (p : List Nat) : Prop := (e.at p).isSome ∧ (f.at p).isSome

/-- Both trees have every node that the loops come to. -/
def Covered (spare : Nat) (e f : JsonNode) : Prop := ∀ p, e.Leads spare p → Present e f p

/-- At some place that the loops come to two nodes are unlike, and up to there no node is missing.
Places are in the order of the text, which is the lexicographic one. -/
def Told (spare : Nat) (e f : JsonNode) : Prop :=
  ∃ p, e.Leads spare p ∧ (∃ e' f', e.at p = some e' ∧ f.at p = some f' ∧ Unlike e' f') ∧
    ∀ q, q < p → e.Leads spare q → Present e f q

end Places

/-- The comparison of two trees is a test for equality and reads nothing outside of them. -/
def EqualityTest (spare : Nat) (a b : YajlVal) : Prop :=
  ∃ r, jsonToolsNodeCompare spare a b = .ok r ∧ (r = 0 ↔ a = b)

section Numbers

theorem nearestDouble_eq_zero {n : Int} (h : nearestDouble n = 0) : n = 0 := by
  unfold nearestDouble at h
  split at h
  · exact h
  · rename_i hbig
    have hne : n.natAbs ≠ 0 := by
      intro hzero
      rw [hzero] at hbig
      exact hbig (by decide)
    have hlow : 0 < n.natAbs / 2 ^ (n.natAbs.log2 - 52) := by
      apply Nat.div_pos _ (Nat.two_pow_pos _)
      calc 2 ^ (n.natAbs.log2 - 52) ≤ 2 ^ n.natAbs.log2 :=
            Nat.pow_le_pow_right (by decide) (Nat.sub_le _ _)
        _ ≤ n.natAbs := Nat.log2_self_le hne
    rcases Int.mul_eq_zero.mp h with hsign | hmul
    · exact Int.sign_eq_zero_iff_zero.mp hsign
    · have hmul' := Int.natCast_eq_zero.mp hmul
      rcases Nat.mul_eq_zero.mp hmul' with hup | hunit
      · split at hup <;> omega
      · exact absurd hunit (Nat.pos_iff_ne_zero.mp (Nat.two_pow_pos _))

theorem nearestDouble_zero : nearestDouble 0 = 0 := rfl

theorem intOfDouble_eq_zero_iff (d : Int) : intOfDouble d = 0 ↔ d = 0 := by
  unfold intOfDouble
  split <;> omega

theorem decimalsDiffer_iff (i j : Int64) :
    decimalsDiffer i j ↔ nearestDouble i.toInt ≠ nearestDouble j.toInt := by
  have hzero :
      (intOfDouble (nearestDouble (nearestDouble i.toInt - nearestDouble j.toInt))).natAbs = 0 ↔
        nearestDouble i.toInt = nearestDouble j.toInt := by
    rw [Int.natAbs_eq_zero, intOfDouble_eq_zero_iff]
    constructor
    · intro h
      have hdiff := nearestDouble_eq_zero h
      omega
    · intro h
      rw [h, Int.sub_self, nearestDouble_zero]
  by_cases hz :
      (intOfDouble (nearestDouble (nearestDouble i.toInt - nearestDouble j.toInt))).natAbs = 0
  · rw [decimalsDiffer, if_pos hz]
    simp [hzero.mp hz]
  · rw [decimalsDiffer, if_neg hz]
    simpa using mt hzero.mpr hz

end Numbers

section Keys

theorem strcmpBytes_eq_zero {s t : List UInt8} (hs : 0 ∉ s) (ht : 0 ∉ t)
    (h : strcmpBytes s t = 0) : s = t := by
  have hcode : ∀ c : UInt8, c.toNat = 0 → c = 0 := by
    intro c hc
    exact UInt8.toNat_inj.mp hc
  induction s generalizing t with
  | nil =>
    cases t with
    | nil => rfl
    | cons d ds =>
      rw [List.mem_cons, not_or] at ht
      rw [strcmpBytes] at h
      exact absurd (hcode d (by omega)).symm ht.1
  | cons c cs ih =>
    rw [List.mem_cons, not_or] at hs
    cases t with
    | nil =>
      rw [strcmpBytes] at h
      exact absurd (hcode c (by omega)).symm hs.1
    | cons d ds =>
      rw [List.mem_cons, not_or] at ht
      rw [strcmpBytes] at h
      split at h
      · rename_i hcd
        rw [hcd, ih hs.2 ht.2 h]
      · rename_i hcd
        exact absurd (UInt8.toNat_inj.mp (by omega)) hcd

theorem strcmpBytes_self (s : List UInt8) : strcmpBytes s s = 0 := by
  induction s with
  | nil => rfl
  | cons c cs ih => rw [strcmpBytes, if_pos rfl, ih]

theorem strcmp_eq_zero_iff (s t : CString) : strcmp s t = 0 ↔ s = t := by
  constructor
  · intro h
    cases s
    cases t
    simp only [CString.mk.injEq]
    exact strcmpBytes_eq_zero (by assumption) (by assumption) h
  · rintro rfl
    exact strcmpBytes_self s.bytes

end Keys

section Compare
variable {spare n : Nat} {e f : JsonNode} {es fs : List JsonNode}

theorem not_unlike_self (e : JsonNode) : ¬Unlike e e := by
  rintro (h | h | ⟨i, j, hi, hj, hne⟩)
  · exact h rfl
  · exact h rfl
  · rw [hi] at hj
    cases hj
    exact hne rfl

/-- Nothing is missing and nothing is told apart below `n` pairs. -/
def CoveredBelow (spare n : Nat) (es fs : List JsonNode) : Prop :=
  ∀ i, i < n → ∃ e f, es[i]? = some e ∧ fs[i]? = some f ∧ Covered spare e f

def ToldBelow (spare n : Nat) (es fs : List JsonNode) : Prop :=
  ∃ i, i < n ∧ (∃ e f, es[i]? = some e ∧ fs[i]? = some f ∧ Told spare e f) ∧
    CoveredBelow spare i es fs

theorem leads_cons {i : Nat} {p : List Nat} (hi : i < e.2.turns spare) {e' : JsonNode}
    (he : e.2.kids[i]? = some e') : e.Leads spare (i :: p) ↔ e'.Leads spare p := by
  rw [JsonNode.Leads, he]
  exact and_iff_right hi

theorem present_cons {i : Nat} {p : List Nat} {e' f' : JsonNode} (he : e.2.kids[i]? = some e')
    (hf : f.2.kids[i]? = some f') : Present e f (i :: p) ↔ Present e' f' p := by
  rw [Present, JsonNode.at, JsonNode.at, he, hf]
  rfl

/-- Below one position of the two nodes. -/
theorem covered_kid {i : Nat} (hi : i < e.2.turns spare) :
    (∀ p, e.Leads spare (i :: p) → Present e f (i :: p)) ↔
      ∃ e' f', e.2.kids[i]? = some e' ∧ f.2.kids[i]? = some f' ∧ Covered spare e' f' := by
  constructor
  · intro h
    have hkid := h [] ⟨hi, by split <;> simp [JsonNode.Leads]⟩
    simp only [Present, JsonNode.at, Option.bind_fun_some, Option.isSome_iff_exists] at hkid
    obtain ⟨⟨e', he⟩, f', hf⟩ := hkid
    exact ⟨e', f', he, hf, fun p hp => (present_cons he hf).mp (h p ((leads_cons hi he).mpr hp))⟩
  · rintro ⟨e', f', he, hf, hcov⟩ p hp
    exact (present_cons he hf).mpr (hcov p ((leads_cons hi he).mp hp))

theorem covered_iff : Covered spare e f ↔ CoveredBelow spare (e.2.turns spare) e.2.kids f.2.kids := by
  constructor
  · intro h i hi
    exact (covered_kid hi).mp fun p => h (i :: p)
  · intro h p hp
    cases p with
    | nil => exact ⟨rfl, rfl⟩
    | cons i p => exact (covered_kid hp.1).mpr (h i hp.1) p hp

theorem told_iff :
    Told spare e f ↔ Unlike e f ∨ ToldBelow spare (e.2.turns spare) e.2.kids f.2.kids := by
  constructor
  · rintro ⟨p, hp, ⟨e', f', he', hf', hunlike⟩, hbefore⟩
    cases p with
    | nil =>
      cases he'
      cases hf'
      exact .inl hunlike
    | cons i p =>
      obtain ⟨e₁, he, he'⟩ := Option.bind_eq_some_iff.mp he'
      obtain ⟨f₁, hf, hf'⟩ := Option.bind_eq_some_iff.mp hf'
      refine .inr ⟨i, hp.1, ⟨e₁, f₁, he, hf, p, (leads_cons hp.1 he).mp hp,
        ⟨e', f', he', hf', hunlike⟩, fun q hq hlead => ?_⟩, fun j hj => ?_⟩
      · exact (present_cons he hf).mp
          (hbefore (i :: q) (List.cons_lt_cons_self.mpr hq) ((leads_cons hp.1 he).mpr hlead))
      · exact (covered_kid (Nat.lt_trans hj hp.1)).mp fun q =>
          hbefore (j :: q) (List.cons_lt_cons_iff.mpr (.inl hj))
  · rintro (hunlike | ⟨i, hi, ⟨e₁, f₁, he, hf, p, hp, ⟨e', f', he', hf', hunlike⟩, hbefore⟩, hcov⟩)
    · exact ⟨[], trivial, ⟨e, f, rfl, rfl, hunlike⟩, fun q hq => absurd hq (List.not_lt_nil q)⟩
    · refine ⟨i :: p, (leads_cons hi he).mpr hp, ⟨e', f', ?_, ?_, hunlike⟩, fun q hq hlead => ?_⟩
      · rw [JsonNode.at, he]
        exact he'
      · rw [JsonNode.at, hf]
        exact hf'
      · cases q with
        | nil => exact ⟨rfl, rfl⟩
        | cons j q =>
          rcases List.cons_lt_cons_iff.mp hq with hj | ⟨rfl, hless⟩
          · exact (covered_kid (Nat.lt_trans hj hi)).mpr (hcov j hj) q hlead
          · exact (present_cons he hf).mpr (hbefore q hless ((leads_cons hi he).mp hlead))

theorem told_self (e : JsonNode) : ¬Told spare e e := by
  rintro ⟨p, -, ⟨e', f', he, hf, hunlike⟩, -⟩
  rw [he] at hf
  cases hf
  exact not_unlike_self _ hunlike

section Pairs

theorem covered_zero : CoveredBelow spare 0 es fs := fun i hi => absurd hi (Nat.not_lt_zero i)

theorem told_zero : ¬ToldBelow spare 0 es fs := by
  rintro ⟨i, hi, -⟩
  exact absurd hi (Nat.not_lt_zero i)

theorem covered_succ : CoveredBelow spare (n + 1) (e :: es) (f :: fs) ↔
    Covered spare e f ∧ CoveredBelow spare n es fs := by
  constructor
  · intro h
    obtain ⟨e', f', he, hf, hcov⟩ := h 0 (Nat.succ_pos n)
    cases he
    cases hf
    exact ⟨hcov, fun i hi => h (i + 1) (Nat.succ_lt_succ hi)⟩
  · rintro ⟨hcov, hrest⟩ i hi
    cases i with
    | zero => exact ⟨e, f, rfl, rfl, hcov⟩
    | succ i => exact hrest i (Nat.lt_of_succ_lt_succ hi)

theorem told_succ : ToldBelow spare (n + 1) (e :: es) (f :: fs) ↔
    Told spare e f ∨ Covered spare e f ∧ ToldBelow spare n es fs := by
  constructor
  · rintro ⟨i, hi, htold, hcov⟩
    cases i with
    | zero =>
      obtain ⟨e', f', he, hf, htold⟩ := htold
      cases he
      cases hf
      exact .inl htold
    | succ i =>
      obtain ⟨hfirst, hrest⟩ := covered_succ.mp hcov
      exact .inr ⟨hfirst, i, Nat.lt_of_succ_lt_succ hi, htold, hrest⟩
  · rintro (htold | ⟨hcov, i, hi, htold, hrest⟩)
    · exact ⟨0, Nat.succ_pos n, ⟨e, f, rfl, rfl, htold⟩, covered_zero⟩
    · exact ⟨i + 1, Nat.succ_lt_succ hi, htold, covered_succ.mpr ⟨hcov, hrest⟩⟩

theorem missing_succ (spare n : Nat) (h : es = [] ∨ fs = []) :
    ¬CoveredBelow spare (n + 1) es fs ∧ ¬ToldBelow spare (n + 1) es fs := by
  have hnone : ¬∃ e f, es[0]? = some e ∧ fs[0]? = some f ∧ Covered spare e f := by
    rintro ⟨e, f, he, hf, -⟩
    rcases h with rfl | rfl
    · cases he
    · cases hf
  refine ⟨fun hcov => hnone (hcov 0 (Nat.succ_pos n)), ?_⟩
  rintro ⟨i, -, ⟨e, f, he, hf, -⟩, hcov⟩
  cases i with
  | zero =>
    rcases h with rfl | rfl
    · cases he
    · cases hf
  | succ i => exact hnone (hcov 0 (Nat.succ_pos i))

end Pairs

/-- The result of a comparison that has found a difference, has found nothing, or has left a tree
first. -/
def Gives (told covered : Prop) (r : Except Overrun Int) : Prop :=
  r = .ok (-1) ∧ told ∨ r = .ok 0 ∧ covered ∧ ¬told ∨ (∃ o, r = .error o) ∧ ¬told ∧ ¬covered

/-- A comparison goes on with the rest when it has found no difference. -/
theorem Gives.next {told covered told' covered' : Prop} {r r' : Except Overrun Int}
    (h : Gives told covered r) (h' : Gives told' covered' r') :
    Gives (told ∨ covered ∧ told') (covered ∧ covered') (do
      let x ← r
      if x ≠ 0 then return -1
      r') := by
  rcases h with ⟨rfl, ht⟩ | ⟨rfl, hc, ht⟩ | ⟨⟨o, rfl⟩, ht, hc⟩
  · exact .inl ⟨rfl, .inl ht⟩
  · simp only [hc, ht, false_or, true_and]
    exact h'
  · exact .inr (.inr ⟨⟨o, rfl⟩, by simp [ht, hc]⟩)

theorem gives_same {told covered : Prop} (ht : ¬told) (hc : covered) : Gives told covered (.ok 0) :=
  .inr (.inl ⟨rfl, hc, ht⟩)

/-- Keys are compared before the nodes. -/
theorem told_keyed (spare : Nat) {k l : Option CString} (a b : YajlVal) (h : k = l) :
    (Told spare (k, a) (l, b) ↔ Told spare (none, a) (none, b)) ∧
      (Covered spare (k, a) (l, b) ↔ Covered spare (none, a) (none, b)) := by
  subst h
  rw [told_iff, told_iff, covered_iff, covered_iff]
  simp [Unlike]

theorem told_of_unlike (h : Unlike e f) : Told spare e f := told_iff.mpr (.inl h)

/-- Two nodes without loops. -/
theorem gives_leaf {a b : YajlVal} (hturns : a.turns spare = 0) (hsame : ¬Unlike (none, a) (none, b)) :
    Gives (Told spare (none, a) (none, b)) (Covered spare (none, a) (none, b)) (.ok 0) := by
  apply gives_same
  · rw [told_iff, hturns]
    exact not_or_intro hsame told_zero
  · rw [covered_iff, hturns]
    exact covered_zero

/-- The comparison tells what it comes to first, by the recursion of its three loops. -/
theorem compare_gives (spare : Nat) (a b : YajlVal) :
    Gives (Told spare (none, a) (none, b)) (Covered spare (none, a) (none, b))
      (jsonToolsNodeCompare spare a b) := by
  refine (jsonToolsNodeCompare.mutual_induct spare
    (fun a b => Gives (Told spare (none, a) (none, b)) (Covered spare (none, a) (none, b))
      (jsonToolsNodeCompare spare a b))
    (fun n xs ys => Gives (ToldBelow spare n (YajlVal.array xs).kids (YajlVal.array ys).kids)
      (CoveredBelow spare n (YajlVal.array xs).kids (YajlVal.array ys).kids)
      (jsonToolsElementsCompare spare n xs ys))
    (fun i ms ns => Gives (ToldBelow spare ms.length (YajlVal.object ms).kids (YajlVal.object ns).kids)
      (CoveredBelow spare ms.length (YajlVal.object ms).kids (YajlVal.object ns).kids)
      (jsonToolsMembersCompare spare i ms ns))
    ?_ ?_ ?_ ?_ ?_ ?_ ?_ ?_ ?_ ?_ ?_ ?_ ?_ ?_ ?_ ?_).1 a b
  -- two nodes
  · intro s t
    rw [jsonToolsNodeCompare]
    exact gives_leaf rfl (by simp [Unlike, YajlVal.type])
  · intro i j hd
    have hne := (decimalsDiffer_iff i j).mp hd
    rw [jsonToolsNodeCompare, if_pos hd]
    exact .inl ⟨rfl, told_of_unlike (.inr (.inr ⟨i, j, rfl, rfl, hne⟩))⟩
  · intro i j hd
    have heq := not_not.mp (mt (decimalsDiffer_iff i j).mpr hd)
    rw [jsonToolsNodeCompare, if_neg hd]
    exact gives_leaf rfl (by simp [Unlike, YajlVal.type, heq])
  · intro ms ns ih
    rw [jsonToolsNodeCompare, told_iff, covered_iff]
    simpa [Unlike, YajlVal.type, YajlVal.turns] using ih
  · intro xs ys ih
    rw [jsonToolsNodeCompare, told_iff, covered_iff]
    simpa [Unlike, YajlVal.type, YajlVal.turns] using ih
  · rw [jsonToolsNodeCompare]
    exact gives_leaf rfl (by simp [Unlike])
  · rw [jsonToolsNodeCompare]
    exact gives_leaf rfl (by simp [Unlike])
  · rw [jsonToolsNodeCompare]
    exact gives_leaf rfl (by simp [Unlike])
  · intro a b hs hn ho ha hy hf hl
    have htype : a.type ≠ b.type := by
      intro h
      cases a <;> cases b
      all_goals first
        | exact hs _ _ rfl rfl
        | exact hn _ _ rfl rfl
        | exact ho _ _ rfl rfl
        | exact ha _ _ rfl rfl
        | exact hy rfl rfl
        | exact hf rfl rfl
        | exact hl rfl rfl
        | cases h
    rw [jsonToolsNodeCompare]
    · exact .inl ⟨rfl, told_of_unlike (.inr (.inl htype))⟩
    all_goals assumption
  -- the members
  · intro i ns
    rw [jsonToolsMembersCompare]
    exact gives_same told_zero covered_zero
  · intro i m ms
    rw [jsonToolsMembersCompare]
    have hempty : (YajlVal.object (m :: ms)).kids = [] ∨ (YajlVal.object []).kids = [] := .inr rfl
    obtain ⟨hc, ht⟩ := missing_succ spare ms.length hempty
    exact .inr (.inr ⟨⟨_, rfl⟩, ht, hc⟩)
  · intro i k x ms l y ns hk
    rw [jsonToolsMembersCompare, if_pos hk]
    have hkey : k ≠ l := mt (strcmp_eq_zero_iff k l).mpr hk
    exact .inl ⟨rfl, told_succ.mpr (.inl (told_of_unlike (.inl (by simpa using hkey))))⟩
  · intro i k x ms l y ns hk ihx ih
    have heq := (strcmp_eq_zero_iff k l).mp (not_not.mp hk)
    obtain ⟨ht, hc⟩ := told_keyed spare x y (congrArg some heq)
    rw [← ht, ← hc] at ihx
    have hnext := ihx.next ih
    rw [← told_succ, ← covered_succ] at hnext
    rw [jsonToolsMembersCompare, if_neg hk]
    exact hnext
  -- the elements
  · intro xs ys
    rw [jsonToolsElementsCompare]
    exact gives_same told_zero covered_zero
  · intro n x xs y ys ihx ih
    have hnext := ihx.next ih
    rw [← told_succ, ← covered_succ] at hnext
    rw [jsonToolsElementsCompare]
    exact hnext
  · intro xs n ys hnone
    rw [jsonToolsElementsCompare]
    · have hempty : (YajlVal.array xs).kids = [] ∨ (YajlVal.array ys).kids = [] := by
        cases xs with
        | nil => exact .inl rfl
        | cons x xs =>
          cases ys with
          | nil => exact .inr rfl
          | cons y ys => exact (hnone x xs y ys rfl rfl).elim
      obtain ⟨hc, ht⟩ := missing_succ spare n hempty
      exact .inr (.inr ⟨⟨_, rfl⟩, ht, hc⟩)
    all_goals assumption

theorem kid_of_turn {a : YajlVal} {i : Nat} (hi : i < a.turns 0) : ∃ e, a.kids[i]? = some e := by
  cases a with
  | object ms =>
    have hlen : i < (YajlVal.object ms).kids.length := by
      rw [YajlVal.kids, List.length_map]
      exact hi
    exact ⟨_, List.getElem?_eq_getElem hlen⟩
  | _ => exact absurd hi (Nat.not_lt_zero i)

/-- When the parser has cleared its nodes, nothing is missing from two equal trees. -/
theorem covered_self (e : JsonNode) : Covered 0 e e := by
  intro p
  induction p generalizing e with
  | nil => exact fun _ => ⟨rfl, rfl⟩
  | cons i p ih =>
    intro hp
    obtain ⟨e', he⟩ := kid_of_turn hp.1
    exact (present_cons he he).mpr (ih e' ((leads_cons hp.1 he).mp hp))

end Compare

/-- The comparison is a test for equality exactly on equal trees of which the loops over arrays miss
nothing, and on trees that are told apart at some place before anything is missing. Of equal trees
nothing is missing when the word that bounds the loops over arrays was cleared. -/
theorem node_compare_iff (spare : Nat) (a b : YajlVal) :
    (EqualityTest spare a b ↔
        a = b ∧ Covered spare (none, a) (none, b) ∨ Told spare (none, a) (none, b)) ∧
      (EqualityTest 0 a b ↔ a = b ∨ Told 0 (none, a) (none, b)) := by
  have hiff : ∀ spare, EqualityTest spare a b ↔
      a = b ∧ Covered spare (none, a) (none, b) ∨ Told spare (none, a) (none, b) := by
    intro spare
    unfold EqualityTest
    rcases compare_gives spare a b with ⟨hr, htold⟩ | ⟨hr, hcov, htold⟩ | ⟨⟨o, hr⟩, htold, hcov⟩
    · have hne : a ≠ b := by
        rintro rfl
        exact told_self _ htold
      simp [hr, htold, hne]
    · simp [hr, htold, hcov]
    · simp [hr, htold, hcov]
  refine ⟨hiff spare, (hiff 0).trans ?_⟩
  constructor
  · rintro (⟨heq, -⟩ | htold)
    · exact .inl heq
    · exact .inr htold
  · rintro (rfl | htold)
    · exact .inl ⟨rfl, covered_self _⟩
    · exact .inr htold

/-- Two strings that are not equal give 0, and an object without members is left. -/
theorem strings_compare_equal : ∃ s t : CString, s ≠ t ∧ ∀ spare,
    jsonToolsNodeCompare spare (.string s) (.string t) = .ok 0 ∧
      ¬EqualityTest spare (.string s) (.string t) ∧
      jsonToolsNodeCompare spare (.object [(s, .null)]) (.object []) = .error (.member 0) := by
  refine ⟨⟨[0x61], by decide⟩, ⟨[0x62], by decide⟩, by decide, fun spare => ⟨rfl, ?_, rfl⟩⟩
  rintro ⟨r, hr, hiff⟩
  cases hr
  have heq := YajlVal.string.inj (hiff.mp rfl)
  revert heq
  decide

end Wtools

import Wtools.RoundTrip

/-!
# Names that are missed

A rendering never makes more calls than the text has tokens, and it makes exactly those only
if every key in force has its name: a member without a name, or with another one, shows in
the calls.
-/

namespace Wtools
open Forest

variable {accept : Accept} {names : Names}

/-- A rendering that makes at most the calls `ts`, and whose calls are `ts` only if `p` holds. -/
def Makes (g : Gen) (r : Bool × Gen) (ts : List GenCall) (p : Prop) : Prop :=
  ∃ out, r.2.made = g.made ++ out ∧ out.length ≤ ts.length ∧ (out = ts → p)

theorem Makes.imp {g : Gen} {r : Bool × Gen} {ts : List GenCall} {p q : Prop} (h : Makes g r ts p)
    (hpq : p → q) : Makes g r ts q := by
  obtain ⟨out, hmade, hlen, hp⟩ := h
  exact ⟨out, hmade, hlen, fun h => hpq (hp h)⟩

theorem call_made (accept : Accept) (c : GenCall) (g : Gen) :
    (g.call accept c).2.made = g.made ++ [c] := by
  rw [Gen.call]
  split <;> rfl

theorem calls_made (accept : Accept) (ts : List GenCall) (g : Gen) :
    ∃ out, (g.calls accept ts).2.made = g.made ++ out ∧ out <+: ts := by
  induction ts generalizing g with
  | nil => exact ⟨[], by simp [Gen.calls], List.prefix_refl _⟩
  | cons c ts ih =>
    rw [Gen.calls]
    cases hc : g.call accept c with
    | mk ok g' =>
      have hmade : g'.made = g.made ++ [c] := by
        rw [← call_made accept c g, hc]
      cases ok with
      | true =>
        obtain ⟨out, hout, hpre⟩ := ih g'
        exact ⟨c :: out, by simp [hout, hmade], List.cons_prefix_cons.mpr ⟨rfl, hpre⟩⟩
      | false => exact ⟨[c], hmade, List.cons_prefix_cons.mpr ⟨rfl, List.nil_prefix⟩⟩

theorem Makes.calls (g : Gen) (ts us : List GenCall) (h : ts.length ≤ us.length) :
    Makes g (Gen.stop (g.calls accept ts)) us (ts = us) := by
  obtain ⟨out, hout, hpre⟩ := calls_made accept ts g
  refine ⟨out, hout, hpre.length_le.trans h, ?_⟩
  rintro rfl
  exact (hpre.eq_of_length (Nat.le_antisymm hpre.length_le h)).symm

theorem Makes.nothing {g : Gen} {stopped : Bool} {ts : List GenCall} {p : Prop} (h : ts ≠ []) :
    Makes g (stopped, g) ts p :=
  ⟨[], (List.append_nil _).symm, Nat.zero_le _, fun he => absurd he.symm h⟩

/-- One rendering after another; there must be calls to miss in the second one when the first
one stops the loop. -/
theorem Makes.append {cs ds : List Call} {g : Gen} {ts us : List GenCall} {p q : Prop}
    (h₁ : Makes g (render accept names cs g) ts p)
    (h₂ : ∀ g', Makes g' (render accept names ds g') us q) (h0 : us = [] → q) :
    Makes g (render accept names (cs ++ ds) g) (ts ++ us) (p ∧ q) := by
  obtain ⟨out, hmade, hlen, hp⟩ := h₁
  rw [render_append]
  by_cases hstop : (render accept names cs g).1 = true
  · rw [if_pos hstop]
    refine ⟨out, hmade, by rw [List.length_append]; omega, ?_⟩
    rintro rfl
    rw [List.length_append] at hlen
    have hus : us = [] := List.eq_nil_of_length_eq_zero (by omega)
    exact ⟨hp (by rw [hus, List.append_nil]), h0 hus⟩
  · rw [if_neg hstop]
    obtain ⟨out', hmade', hlen', hq⟩ := h₂ (render accept names cs g).2
    refine ⟨out ++ out', by rw [hmade', hmade, List.append_assoc],
      by simp only [List.length_append]; omega, ?_⟩
    intro he
    have hl := congrArg List.length he
    simp only [List.length_append] at hl
    obtain ⟨h, h'⟩ := List.append_inj he (by omega)
    exact ⟨hp h, hq h'⟩

theorem render_single (c : Call) (g : Gen) :
    render accept names [c] g = renderCall accept names c g := by
  rw [render_cons]
  cases h : renderCall accept names c g with
  | mk stopped g' => cases stopped <;> rfl

variable (accept names)

theorem makes_opening (k : Kind) (key : UInt16) (w : List UInt8) (g : Gen) :
    Makes g (render accept names [.opening k key] g) [.string w, startToken k]
      (names key = some w ∧ (k = .map → key ≠ bkvNoKey ∧ w ≠ [])) := by
  rw [render_single]
  cases k with
  | map =>
    rw [renderCall]
    cases hn : (if key = bkvNoKey then some [] else names key) with
    | none => exact Makes.nothing (by simp)
    | some s =>
      by_cases hs : s = []
      · refine ⟨[.mapOpen], ?_, by simp, by simp⟩
        simp [hs, Gen.stop, call_made]
      · refine ⟨[.string s, .mapOpen], ?_, by simp, fun h => ?_⟩
        · simp [List.length_pos_iff.mpr hs, Gen.stop, call_made]
        · have hkey : key ≠ bkvNoKey := by
            rintro rfl
            rw [if_pos rfl, Option.some.injEq] at hn
            exact hs hn.symm
          rw [if_neg hkey] at hn
          simp only [List.cons.injEq, GenCall.string.injEq] at h
          rw [← h.1]
          exact ⟨hn, fun _ => ⟨hkey, hs⟩⟩
  | array =>
    rw [renderCall]
    cases hn : names key with
    | none => exact Makes.nothing (by simp)
    | some s =>
      refine (Makes.calls g [.string s, .arrayOpen] [.string w, .arrayOpen]
        (Nat.le_refl _)).imp fun h => ?_
      simp only [List.cons.injEq, GenCall.string.injEq] at h
      rw [h.1]
      exact ⟨rfl, by simp⟩

theorem makes_closing (k : Kind) (g : Gen) :
    Makes g (render accept names [.closing k] g) [endToken k] True := by
  rw [render_single]
  exact ⟨[endToken k], by rw [renderCall, Gen.stop, call_made], Nat.le_refl _, fun _ => trivial⟩

theorem makes_member {key : UInt16} {s : Scalar} {t : GenCall} (hst : s.token? = some t)
    (w : List UInt8) (g : Gen) :
    Makes g (render accept names [.add (.keyed key s)] g) [.string w, t] (names key = some w) := by
  rw [render_single, renderCall, Entry.tokens?, hst]
  cases hn : names key with
  | none => exact Makes.nothing (by simp)
  | some v =>
    refine (Makes.calls g [.string v, t] [.string w, t] (Nat.le_refl _)).imp fun h => ?_
    simp only [List.cons.injEq, GenCall.string.injEq] at h
    rw [h.1]

theorem makes_element {e : Elem} {t : GenCall} (hst : e.scalar.token? = some t) (g : Gen) :
    Makes g (render accept names [.add (.elem e)] g) [t] True := by
  rw [render_single, renderCall, Entry.tokens?, hst]
  exact (Makes.calls g [t] [t] (Nat.le_refl _)).imp fun _ => trivial

theorem makes_root (g : Gen) :
    Makes g (render accept names [.opening .map bkvNoKey] g) [.mapOpen] True := by
  rw [render_single, renderCall, if_pos rfl]
  exact ⟨[.mapOpen], by simp [Gen.stop, call_made], Nat.le_refl _, fun _ => trivial⟩

end Wtools

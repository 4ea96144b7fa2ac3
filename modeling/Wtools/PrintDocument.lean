import Wtools.Nesting
import Wtools.Records

/-!
# Printing a document

`bkv_print2` prints one line for each record of a closed document, in order. Its table has no
callback for doubles, which `val_foreach` calls without looking.
-/

namespace Wtools
open ByteMemory Forest

def ascii (s : String) : List UInt8 := s.toUTF8.data.toList

/-- `%d` and `%"PRIi64"`. -/
def decimal (i : Int) : List UInt8 := ascii (toString i)

/-- A line: a text and its values, with colons between them. -/
def printLine (text : String) (values : List (List UInt8)) : List UInt8 :=
  ascii text ++ [0x3A].intercalate values ++ [0x0A]

/-- `%.*s`: at most `len` bytes, up to the first NUL. -/
def printedStr (z : Zone) : (p_str len : Nat) → Except Fault (List UInt8)
  | _, 0 => .ok []
  | p_str, len + 1 => do
    let b ← readByte z p_str
    if b = 0 then return []
    return b :: (← printedStr z (p_str + 1) len)

def bkvPrintMapOpen (key : UInt16) : List UInt8 :=
  printLine "BKV : MAP OPEN " [decimal key.toNat]

def bkvPrintMapClose (key : UInt16) : List UInt8 :=
  printLine "BKV : MAP CLOSE " [decimal key.toNat]

def bkvPrintUint16 (key value : UInt16) : List UInt8 :=
  printLine "BKV : UINT16 " [decimal key.toNat, decimal value.toNat]

/-- The value is printed as a signed one. -/
def bkvPrintUint32 (key : UInt16) (value : UInt32) : List UInt8 :=
  printLine "BKV : UINT32 " [decimal key.toNat, decimal value.toInt32.toInt]

/-- The value is printed as a signed one. -/
def bkvPrintUint64 (key : UInt16) (value : UInt64) : List UInt8 :=
  printLine "BKV : UINT64 " [decimal key.toNat, decimal value.toInt64.toInt]

def bkvPrintStr (key : UInt16) (str : List UInt8) : List UInt8 :=
  printLine "BKV : STR " [decimal key.toNat, str]

def bkvPrintArrayOpen (key : UInt16) : List UInt8 :=
  printLine "BKV : ARRAY OPEN " [decimal key.toNat]

def bkvPrintArrayClose : List UInt8 := printLine "BKV : ARRAY CLOSE" []

/-- `showFloat` is `%f`. -/
def bkvPrintFloat (showFloat : UInt32 → List UInt8) (key : UInt16) (f : UInt32) : List UInt8 :=
  printLine "BKV : FLOAT : " [decimal key.toNat, showFloat f]

def bkvPrintBool (key : UInt16) (f : Bool) : List UInt8 :=
  printLine "BKV : BOOL : " [decimal key.toNat, decimal (if f then 1 else 0)]

/-- What a callback of `s_bkv_callbacks` prints. There is none for doubles. -/
def printed (showFloat : UInt32 → List UInt8) (z : Zone) : Event → Except Fault (List UInt8)
  | .mapOpen _ key => .ok (bkvPrintMapOpen key)
  | .mapClose key => .ok (bkvPrintMapClose key)
  | .arrayOpen _ _ key => .ok (bkvPrintArrayOpen key)
  | .arrayClose => .ok bkvPrintArrayClose
  | .uint16 _ _ key value => .ok (bkvPrintUint16 key value)
  | .uint32 _ _ key value => .ok (bkvPrintUint32 key value)
  | .uint64 _ _ key value => .ok (bkvPrintUint64 key value)
  | .str _ key p_str len => do return bkvPrintStr key (← printedStr z p_str len)
  | .float _ key f => .ok (bkvPrintFloat showFloat key f)
  | .double _ _ _ => .error .nullCallback
  | .boolean _ key f => .ok (bkvPrintBool key f)

/-- The callbacks add to what was printed. -/
def printCallbacks (showFloat : UInt32 → List UInt8) (z : Zone) : Callbacks (List UInt8) :=
  fun e out => do return (actionNone, out ++ (← printed showFloat z e))

/-- The result and what is printed. `l_value` is the local before it is set; the result of
`bkv_val_init` is not looked at. -/
def bkvPrint2 (showFloat : UInt32 → List UInt8) (l_value : BkvVal) (z : Zone) :
    Except Fault (Int × List UInt8) := do
  let (_, l_value) ← bkvValInit z l_value 0
  bkvValForeach z l_value (printCallbacks showFloat z) []

/-- The line of a record as the traversal comes to it. -/
def Prints (showFloat : UInt32 → List UInt8) (z : Zone) : Event → List UInt8 → Prop
  | .mapOpen _ key, l => l = bkvPrintMapOpen key
  | .mapClose key, l => l = bkvPrintMapClose key
  | .arrayOpen _ _ key, l => l = bkvPrintArrayOpen key
  | .arrayClose, l => l = bkvPrintArrayClose
  | .uint16 _ _ key v, l => l = bkvPrintUint16 key v
  | .uint32 _ _ key v, l => l = bkvPrintUint32 key v
  | .uint64 _ _ key v, l => l = bkvPrintUint64 key v
  | .str _ key p_str len, l => ∃ bytes, z.slice? p_str len = some bytes ∧
      l = bkvPrintStr key (bytes.takeWhile (· ≠ 0))
  | .float _ key f, l => l = bkvPrintFloat showFloat key f
  | .double _ _ _, _ => False
  | .boolean _ key v, l => l = bkvPrintBool key v

/-- A record that was added as a double. -/
def Call.IsDouble (c : Call) : Prop := ∃ key v, c = .add (.keyed key (.double v))

section Lines
variable {showFloat : UInt32 → List UInt8} {z : Zone}

theorem printedStr_slice {p n : Nat} (h : p + n ≤ z.size) :
    printedStr z p n = .ok ((slice z.mem p n).takeWhile (· ≠ 0)) := by
  induction n generalizing p with
  | zero => rfl
  | succ n ih =>
    rw [printedStr, readByte_of_lt (by omega), ok_bind, slice, List.takeWhile_cons]
    by_cases hb : z.mem p = 0
    · simp [hb]
    · rw [if_neg hb, ih (by omega)]
      simp [hb]

theorem printed_str {p n : Nat} {bytes : List UInt8} (h : z.slice? p n = some bytes) (q : Nat)
    (key : UInt16) : printed showFloat z (.str q key p n) =
      .ok (bkvPrintStr key (bytes.takeWhile (· ≠ 0))) := by
  rw [Zone.slice?] at h
  split at h
  · rename_i hle
    cases h
    rw [printed, printedStr_slice hle]
    rfl
  · cases h

/-- The line of a record is printed, unless it is a double or a string that is not there. -/
theorem printed_prints {e : Event} (hdouble : ∀ key f, e.seen z ≠ .double key f)
    (hstr : ∀ key, e.seen z ≠ .str key none) :
    ∃ l, printed showFloat z e = .ok l ∧ Prints showFloat z e l := by
  cases e with
  | double p key f => exact absurd rfl (hdouble key f)
  | str q key p n =>
    cases hbytes : z.slice? p n with
    | none =>
      refine absurd ?_ (hstr key)
      rw [Event.seen, hbytes]
    | some bytes => exact ⟨_, printed_str hbytes q key, bytes, hbytes, rfl⟩
  | _ => exact ⟨_, rfl, rfl⟩

/-- Only a double is seen as one, and a string is seen with its bytes. -/
theorem Shows.printable {deep : Int} {c : Call} {s : Seen} (h : Shows deep c s) :
    (c.IsDouble ↔ ∃ key f, s = .double key f) ∧ ∀ key, s ≠ .str key none := by
  unfold Call.IsDouble
  cases c with
  | opening k key =>
    cases k <;> cases h <;> simp
  | closing k =>
    cases k <;> cases h <;> simp
  | add e =>
    cases e with
    | elem v =>
      cases v <;> cases h <;> simp [Entry.scalar, Elem.scalar, scalarSeen]
    | keyed key v =>
      cases v with
      | wchar str =>
        obtain ⟨bytes, rfl, -, -⟩ := h
        simp
      | _ =>
        cases h
        simp [Entry.scalar, scalarSeen]

theorem visit_print (e : Event) (out : List UInt8) :
    visit (printCallbacks showFloat z) e out =
      (printed showFloat z e).map fun l => (⟨false, false⟩, out ++ l) := by
  rw [visit, printCallbacks]
  cases printed showFloat z e with
  | error x => rfl
  | ok l => simp [Except.map, skips, actionNone, actionGotoEndMap, actionStopLoop]

theorem visitAll_print_cons (e : Event) (evs : List Event) (out : List UInt8) :
    visitAll (visit (printCallbacks showFloat z)) (e :: evs) out =
      printed showFloat z e >>= fun l =>
        visitAll (visit (printCallbacks showFloat z)) evs (out ++ l) := by
  unfold visitAll
  rw [List.foldlM_cons, visit_print]
  cases printed showFloat z e <;> rfl

/-- The lines are printed up to the first double. -/
theorem visitAll_print {deep : Int} {cs : List Call} {evs : List Event}
    (h : ShowsAll deep cs (evs.map (Event.seen z))) (out : List UInt8) :
    ((∀ c ∈ cs, ¬c.IsDouble) →
      ∃ lines, List.Forall₂ (Prints showFloat z) evs lines ∧
        visitAll (visit (printCallbacks showFloat z)) evs out = .ok (out ++ lines.flatten)) ∧
    ((∃ c ∈ cs, c.IsDouble) →
      visitAll (visit (printCallbacks showFloat z)) evs out = .error .nullCallback) := by
  induction cs generalizing deep evs out with
  | nil =>
    cases evs with
    | cons e evs => cases h
    | nil => exact ⟨fun _ => ⟨[], .nil, by simp [visitAll, pure, Except.pure]⟩, by simp⟩
  | cons c cs ih =>
    cases evs with
    | nil => cases h
    | cons e evs =>
      obtain ⟨hc, hcs⟩ := h
      obtain ⟨hdouble, hstr⟩ := hc.printable
      rw [visitAll_print_cons]
      by_cases hd : c.IsDouble
      · obtain ⟨key, f, hseen⟩ := hdouble.mp hd
        have hfault : printed showFloat z e = .error .nullCallback := by
          cases e with
          | double p key f => rfl
          | _ => cases hseen
        rw [hfault]
        exact ⟨fun hnone => absurd hd (hnone c List.mem_cons_self), fun _ => rfl⟩
      · have hne : ∀ key f, e.seen z ≠ .double key f :=
          fun key f hseen => hd (hdouble.mpr ⟨key, f, hseen⟩)
        obtain ⟨l, hl, hprints⟩ := printed_prints hne hstr
        rw [hl, ok_bind]
        obtain ⟨hlines, hfault⟩ := ih hcs (out ++ l)
        constructor
        · intro hnone
          obtain ⟨lines, hall, hok⟩ := hlines fun c hc => hnone c (List.mem_cons_of_mem _ hc)
          refine ⟨l :: lines, .cons hprints hall, ?_⟩
          rw [hok, List.flatten_cons, List.append_assoc]
        · rintro ⟨c', hc', hd'⟩
          rcases List.mem_cons.mp hc' with rfl | hc'
          · exact absurd hd' hd
          · exact hfault ⟨c', hc', hd'⟩

end Lines

/-- The records of a document as a traversal comes to them. The end of a map has the key bits of its
close record, which are not those of the map. -/
def recordsOf (z : Zone) (cs : List Call) : List Event :=
  callEvents (closeKeys z.mem) (counts z.mem) 0 0 cs

/-- A closed document is printed record by record, or the missing callback for doubles is called. -/
theorem print_document (env : Env) (h₀ h : Bkv) (cs : List Call) (hf : FreshRam env h₀)
    (hr : runOk env h₀ cs = some h) (ht : h.state = .term) (hlevels : InLevels cs)
    (hfits : ∀ c ∈ cs, c.Fits) (hsize : h.writeOffset < 2 ^ 31)
    (showFloat : UInt32 → List UInt8) (l_value : BkvVal) :
    Always env (NestingSafe env) h₀ cs ∧
    ((∀ c ∈ cs, ¬c.IsDouble) → ∃ lines,
      ShowsAll 0 cs ((recordsOf (bkvGetHead h) cs).map (Event.seen (bkvGetHead h))) ∧
      List.Forall₂ (Prints showFloat (bkvGetHead h)) (recordsOf (bkvGetHead h) cs) lines ∧
      bkvPrint2 showFloat l_value (bkvGetHead h) = .ok (bkvOk, lines.flatten)) ∧
    ((∃ c ∈ cs, c.IsDouble) →
      bkvPrint2 showFloat l_value (bkvGetHead h) = .error .nullCallback) := by
  refine ⟨nestingSafe_levels hf hr hlevels, ?_⟩
  obtain ⟨-, key, body, -, rfl, hfit, hw⟩ := closed_layout hf hr ht
  have hz : 0 + size (.node (.map, key) body .nil) ≤ (bkvGetHead h).size := by
    rw [← hw, Nat.zero_add]
    exact Nat.le_refl _
  have hkey : key ≤ 0xFFF := hfits (.opening .map key) (by simp)
  have hquiet : ∀ e s a s', visit (printCallbacks showFloat (bkvGetHead h)) e s = .ok (a, s') →
      a = ⟨false, false⟩ := by
    intro e s a s' hvisit
    rw [visit_print] at hvisit
    cases hprinted : printed showFloat (bkvGetHead h) e with
    | error x =>
      rw [hprinted] at hvisit
      cases hvisit
    | ok l =>
      rw [hprinted] at hvisit
      cases hvisit
      rfl
  have hnoskip : NoSkip (printCallbacks showFloat (bkvGetHead h)) := by
    intro off key s r s' hcb
    cases hcb
    rfl
  have hnear : (bkvGetHead h).size < 0 + 2 ^ 31 := by
    rw [Nat.zero_add]
    exact hsize
  have hwalk := valForeach_eq_walk (v := { l_value with type := .object, key := key, priv := 0 })
    rfl hfit hz hnear hfits (.inr hnoskip) (hnoskip 0 key [])
  have hprint : bkvPrint2 showFloat l_value (bkvGetHead h) =
      (visitAll (visit (printCallbacks showFloat (bkvGetHead h)))
        (recordsOf (bkvGetHead h) (calls (.node (.map, key) body .nil))) []).map
        fun out => (bkvOk, out) := by
    rw [bkvPrint2, bkvValInit_map hfit hz hkey, ok_bind]
    change valForeach _ _ _ _ = _
    rw [hwalk, walk_visitAll hquiet, visits_eq, recordsOf]
    cases visitAll _ _ _ <;> rfl
  have hshows := showsAll_calls (closeKeys (bkvGetHead h).mem) (counts (bkvGetHead h).mem) 0
    (recordsFit_calls hfit) (by rwa [widths_calls])
  obtain ⟨hlines, hfault⟩ := @visitAll_print showFloat _ _ _ _ hshows []
  rw [hprint]
  constructor
  · intro hnone
    obtain ⟨lines, hall, hok⟩ := hlines hnone
    refine ⟨lines, hshows, hall, ?_⟩
    rw [recordsOf, hok]
    rfl
  · intro hsome
    rw [recordsOf, hfault hsome]
    rfl

/-- The calls of a document with a negative number and a string that has a NUL. -/
def printedCalls : List Call :=
  [.opening .map 1, .add (.keyed 2 (.u32 0xFFFFFFFF)), .opening .map 4,
    .add (.keyed 3 (.str [104, 0, 105])), .closing .map, .closing .map]

theorem print_document_numbers :
    ∃ h, runOk calmEnv ramHandle printedCalls = some h ∧
      Always calmEnv (NestingSafe calmEnv) ramHandle printedCalls ∧
      ((∀ c ∈ printedCalls, ¬c.IsDouble) → ∃ lines,
        ShowsAll 0 printedCalls
          ((recordsOf (bkvGetHead h) printedCalls).map (Event.seen (bkvGetHead h))) ∧
        List.Forall₂ (Prints (fun _ => []) (bkvGetHead h)) (recordsOf (bkvGetHead h) printedCalls)
          lines ∧
        bkvPrint2 (fun _ => []) bkvValInitValue (bkvGetHead h) = .ok (bkvOk, lines.flatten)) ∧
      ((∃ c ∈ printedCalls, c.IsDouble) →
        bkvPrint2 (fun _ => []) bkvValInitValue (bkvGetHead h) = .error .nullCallback) :=
  ⟨_, rfl, print_document calmEnv ramHandle _ _ ramHandle_fresh rfl rfl (by decide)
    (by simp [printedCalls, Call.Fits]; decide) (by decide) (fun _ => []) bkvValInitValue⟩

end Wtools

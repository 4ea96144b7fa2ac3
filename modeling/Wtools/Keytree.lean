import Wtools.Library.PrefixTree

/-!
# The key tree

`keytree.c`: a trie with four child tables a node, for lower case letters, upper case
letters, digits and other characters. `wg_keytree_add` files a character by
`word_weak_type`, the lookups by `word_type`. A string is the list of its bytes before the
final NUL; the `ctype` functions are those of the C locale.
-/

namespace Wtools

def wNoError : Int := 0
def wEOperationFailed : Int := 2
def wENoMemory : Int := 4
def wEBadParameter : Int := 5
def wEExists : Int := 6

def isdigit (c : UInt8) : Bool := 0x30 ≤ c && c ≤ 0x39
def isupper (c : UInt8) : Bool := 0x41 ≤ c && c ≤ 0x5A
def islower (c : UInt8) : Bool := 0x61 ≤ c && c ≤ 0x7A
def isalpha (c : UInt8) : Bool := isupper c || islower c
def isalnum (c : UInt8) : Bool := isalpha c || isdigit c
def isspace (c : UInt8) : Bool := c == 0x20 || (0x09 ≤ c && c ≤ 0x0D)
def iscntrl (c : UInt8) : Bool := c < 0x20 || c == 0x7F
def ispunct (c : UInt8) : Bool := 0x21 ≤ c && c ≤ 0x7E && !isalnum c

/-- The undefined behaviour of the key tree: an uninitialised or NULL key, an index outside
a table, a table that was freed, a string longer than the buffer of `wg_keytree_foreach`. -/
inductive KeyFault where
  | uninitialised | nullKey | table | freed | overrun
  deriving DecidableEq, Repr

/-- The tables `lower_case_char`, `upper_case_char`, `number_char` and `other_char`. -/
inductive Table where
  | lower | upper | number | other
  deriving DecidableEq, Repr

def Table.size : Table → Nat
  | .number => 10
  | _ => 26

/-- The character of the first entry. -/
def Table.base : Table → UInt8
  | .lower => 0x61
  | .upper => 0x41
  | .number => 0x30
  | .other => 0x21

/-- A `keys` pointer. -/
inductive Keys where
  | null | live | freed
  deriving DecidableEq, Repr

/-- A pointer to a `wg_key_t`: NULL, or a key with its head. -/
inductive Key where
  | null
  | key (end_of_word : Bool) (udata : UInt64) (keys : Table → Keys) (nb_keys : Table → Nat)
      (child : Table → Nat → Key)

def Key.isNull : Key → Bool
  | null => true
  | key .. => false

/-- A key after `memset`. -/
def Key.blank : Key := .key false 0 (fun _ => .null) (fun _ => 0) (fun _ _ => .null)

/-- Which calls to `malloc` succeed, and how many were made. -/
structure Heap where
  malloc : Nat → Bool
  calls : Nat

def Heap.next (h : Heap) : Heap := { h with calls := h.calls + 1 }

/-- `KT_WEAK_TYPE_CASE_SENSITIVE` is the first bit of `type`. -/
structure KeytreeHead where
  type : UInt32
  cb : Bool
  top : Key

def KeytreeHead.folds (head : KeytreeHead) : Bool := head.type &&& 1 ≠ 0

/-- 1 for a digit, 2 for upper case, 3 for lower case, 0 for the rest. -/
def wordType (c : UInt8) : UInt8 :=
  if isdigit c then 1
  else if isalpha c then if isupper c then 2 else if islower c then 3 else 0
  else 0

/-- The result and `*ret_c`, which a newline leaves unset. -/
def wordWeakType (fold : Bool) (c : UInt8) : UInt8 × Option UInt8 :=
  if c = 0x0A then (255, none)
  else if isdigit c then (1, some c)
  else
    let ret_c := if fold && isupper c then 0x61 + (c - 0x41) else c
    let ret_c := if ret_c ∈ [0xE8, 0xE9, 0xEA, 0xEB, 0xC3] then 0x65 else ret_c
    if ret_c ∈ [0x20, 0x3F] then (255, some ret_c)
    else if isupper ret_c then (2, some ret_c)
    else if islower ret_c then (3, some ret_c)
    else (0, some ret_c)

/-- The table and the index `parse_file_create_key` uses for a character, none for the
unmanaged ones. Only the index into the lower case letters is that of the folded character. -/
def placeOf (fold : Bool) (c : UInt8) : Option (Table × Int) :=
  match wordWeakType fold c with
  | (1, _) => some (.number, c.toNat - 0x30)
  | (2, _) => some (.upper, (c - 0x41).toNat)
  | (3, ret_c) => some (.lower, (ret_c.getD 0 - 0x61).toNat)
  | (0, _) => some (.other, c.toNat - 0x21)
  | _ => none

/-- What an add leaves: the key with the subtree grown, the result, `*udata` when it is
written, the key that is passed to `cb`, and the heap. -/
structure Added where
  key : Key
  error : Int
  udata : Option UInt64
  last : Key
  heap : Heap

/-- The keys above the one that grew. -/
def Added.under (r : Added) (above : Key → Key) : Added := { r with key := above r.key }

def Added.noMemory (key : Key) (heap : Heap) : Added := ⟨key, wENoMemory, none, .null, heap⟩

/-- The end of `parse_file_create_key`, on the key of the last character. -/
def endWord (new_elem : Bool) (udata : UInt64) (heap : Heap) : Key → Except KeyFault Added
  | .null => .error .nullKey
  | .key _ old keys nb child =>
    if new_elem then
      let l_key := .key true udata keys nb child
      .ok ⟨l_key, wNoError, none, l_key, heap⟩
    else
      let l_key := .key true old keys nb child
      .ok ⟨l_key, wEExists, some old, l_key, heap⟩

/-- The loop of `parse_file_create_key` below the key `l_key_head`. A character that is not
filed leaves `l_key` as it was, which before the first key is uninitialised. In the tables of
letters a failed `malloc` is not seen: of the table, it leaves `l_key` as it was; of the key,
it sets `l_key` to NULL. -/
def createKey (fold : Bool) (udata : UInt64) :
    List UInt8 → (started new_elem : Bool) → Key → Heap → Except KeyFault Added
  | [], started, new_elem, l_key, heap =>
    if started then endWord new_elem udata heap l_key else .error .uninitialised
  | c :: cs, started, _, l_key, heap =>
    let skip (l_key : Key) (heap : Heap) : Except KeyFault Added :=
      if started then createKey fold udata cs true false l_key heap else .error .uninitialised
    match placeOf fold c, l_key with
    | none, l_key => skip l_key heap
    | some _, .null => .error .nullKey
    | some (t, i), .key eow old keys nb child =>
      let unchecked : Bool := t = .lower ∨ t = .upper
      let allocated := keys t = .null ∧ heap.malloc heap.calls
      let heap' := if keys t = .null then heap.next else heap
      let keys' := if allocated then Function.update keys t .live else keys
      if keys t = .freed then .error .freed
      else if keys t = .null ∧ !allocated then
        if unchecked then skip l_key heap' else .ok (.noMemory l_key heap')
      else if t = .other ∧ (i < 0 ∨ 26 < i) then skip (.key eow old keys' nb child) heap'
      else if i < 0 ∨ t.size ≤ i then .error .table
      else
        let put (nb' : Table → Nat) (sub : Key) : Key :=
          .key eow old keys' nb'
            (Function.update child t (Function.update (child t) i.toNat sub))
        if !(child t i.toNat).isNull then
          (createKey fold udata cs true false (child t i.toNat) heap').map (·.under (put nb))
        else if heap'.malloc heap'.calls then
          (createKey fold udata cs true true .blank heap'.next).map
            (·.under (put (Function.update nb t (nb t + 1))))
        else if unchecked then .error .nullKey
        else .ok (.noMemory (.key eow old keys' nb child) heap'.next)

/-- The tables of the head are freed and its pointers to them kept; what lies below is freed
with them. A table that was freed before is read again. -/
def wgKeyRelease : Key → Except KeyFault Key
  | .null => .error .nullKey
  | .key eow old keys nb child =>
    if [Table.number, .upper, .lower, .other].any (keys · = .freed) then .error .freed
    else .ok (.key eow old (fun t => if keys t = .live then .freed else keys t) nb child)

/-- The result of `wg_keytree_add`. `cb` says whether the callback of the head is called. -/
structure AddResult where
  head : KeytreeHead
  error : Int
  udata : Option UInt64
  cb : Option (Key × List UInt8)
  heap : Heap

def parseFileCreateKey (head : KeytreeHead) (w : List UInt8) (udata : UInt64) (heap : Heap) :
    Except KeyFault AddResult := do
  if w = [] then return ⟨head, wEBadParameter, none, none, heap⟩
  let r ← createKey head.folds udata w false false head.top heap
  if r.error = wENoMemory then
    let top ← wgKeyRelease r.key
    return ⟨{ head with top }, r.error, none, none, r.heap⟩
  return ⟨{ head with top := r.key }, r.error, r.udata,
    if head.cb then some (r.last, w) else none, r.heap⟩

def wgKeytreeAdd (head : KeytreeHead) (w : List UInt8) (udata : UInt64) (heap : Heap) :
    Except KeyFault AddResult :=
  parseFileCreateKey head w udata heap

/-- How far `wg_keytree_create` has come: what it returns, and the head that it has freed, with the
tree that was in it. -/
structure Created where
  error : Int
  head : Option KeytreeHead
  freed : Option KeytreeHead
  heap : Heap

/-- The words of the list go in until one of them does not return `W_NO_ERROR`; then the head is
freed. -/
def createFrom (head : KeytreeHead) : List (List UInt8 × UInt64) → Heap → Except KeyFault Created
  | [], heap => .ok ⟨wNoError, some head, none, heap⟩
  | (w, udata) :: ws, heap => do
    let r ← parseFileCreateKey head w udata heap
    if r.error = wNoError then createFrom r.head ws r.heap
    else return ⟨r.error, none, some r.head, r.heap⟩

/-- Without memory for the head the result is still `W_NO_ERROR`. -/
def wgKeytreeCreate (create_flags : UInt32) (cb : Bool) (wordlist : List (List UInt8 × UInt64))
    (heap : Heap) : Except KeyFault (Int × Option KeytreeHead × Heap) :=
  if heap.malloc heap.calls then
    (createFrom ⟨create_flags, cb, .blank⟩ wordlist heap.next).map fun c => (c.error, c.head, c.heap)
  else .ok (wNoError, none, heap.next)

/-- The character after the ones read. -/
def peek : List UInt8 → UInt8
  | [] => 0
  | c :: _ => c

/-- The table of a character in the lookups; `other` is only looked at by
`wg_keytree_strcmp_isalnum`. -/
def lookupTable (others : Bool) (c : UInt8) : Option Table :=
  match wordType c with
  | 1 => some .number
  | 2 => some .upper
  | 3 => some .lower
  | _ => if others then some .other else none

/-- The `switch` of the lookups. -/
def lookupKey (others : Bool) (k : Key) (c : UInt8) : Except KeyFault Key :=
  match k, lookupTable others c with
  | .null, _ => .error .nullKey
  | .key .., none => .ok .null
  | .key _ _ keys _ child, some t =>
    match keys t with
    | .null => .ok .null
    | .freed => .error .freed
    | .live =>
      let i : Int := c.toNat - t.base.toNat
      if i < 0 ∨ t.size ≤ i then .error .table else .ok (child t i.toNat)

/-- The loop of the three lookups. `found` is their code on a key that ends a word, given
`l_iter` and the next character: it changes the result, and may return. -/
def lookupLoop {ρ : Type} (others : Bool) (found : Key → Nat → UInt8 → ρ → ρ × Bool) :
    Key → Nat → List UInt8 → ρ → Except KeyFault ρ
  | k, _, [], l_error => do
    -- no table has a key for the final NUL
    let _ ← lookupKey others k 0
    return l_error
  | k, l_iter, c :: cs, l_error => do
    let l_key ← lookupKey others k c
    match l_key with
    | .null => return l_error
    | .key end_of_word .. =>
      let (l_error, done) :=
        if end_of_word then found l_key l_iter (peek cs) l_error else (l_error, false)
      if done then return l_error
      lookupLoop others found l_key (l_iter + 1) cs l_error

def wgKeytreeStrcmp (head : KeytreeHead) (str : List UInt8) : Except KeyFault Int :=
  lookupLoop false
    (fun _ _ c l_error => (if isspace c || iscntrl c then wNoError else l_error, false))
    head.top 0 str wEOperationFailed

def keytreeKeyget (head : KeytreeHead) (str : List UInt8) : Except KeyFault Key :=
  lookupLoop false
    (fun l_key _ c none =>
      if ispunct c || isspace c || iscntrl c then (l_key, true) else (none, false))
    head.top 0 str .null

/-- The result and `*data`, the `udata` of the key. -/
def wgKeytreeKeyget (head : KeytreeHead) (str : List UInt8) :
    Except KeyFault (Int × Option UInt64) := do
  match ← keytreeKeyget head str with
  | .null => return (wEOperationFailed, none)
  | .key _ udata .. => return (wNoError, some udata)

def wgKeytreeStrcmpIsalnum (head : KeytreeHead) (str : List UInt8) : Except KeyFault Int :=
  lookupLoop true
    (fun _ l_iter c l_error => (if !isalnum c then (l_iter : Int) + 1 else l_error, false))
    head.top 0 str (-1)

/-- `l_character` after a character has been read: a newline leaves the one before, and at the
start of the string there is none. -/
def lCharacter (fold : Bool) (l_character : Option UInt8) (c : UInt8) : Option UInt8 :=
  (wordWeakType fold c).2 <|> l_character

/-- The key of a character in `wg_keytree_weakcmp`, given `l_character`. What is not a digit goes
to the lower case letters. -/
def weakKey (fold : Bool) (k : Key) (c : UInt8) (l_character : Option UInt8) :
    Except KeyFault Key :=
  match k with
  | .null => .error .nullKey
  | .key _ _ keys _ child =>
    let t : Table := if (wordWeakType fold c).1 = 1 then .number else .lower
    match keys t with
    | .null => .ok .null
    | .freed => .error .freed
    | .live =>
      match if t = .number then some c else l_character with
      | none => .error .uninitialised
      | some l_character =>
        let l_offset : Int := l_character.toNat - t.base.toNat
        if l_offset < 0 ∨ t.size ≤ l_offset then .error .table
        else .ok (child t l_offset.toNat)

def weakLoop (fold : Bool) : Key → Option UInt8 → List UInt8 → Int → Except KeyFault Int
  | k, l_character, [], l_error => do
    -- no table has a key for the final NUL
    let _ ← weakKey fold k 0 (lCharacter fold l_character 0)
    return l_error
  | k, l_character, c :: cs, l_error => do
    let l_character := lCharacter fold l_character c
    let l_key ← weakKey fold k c l_character
    match l_key with
    | .null => return l_error
    | .key end_of_word .. =>
      let l_error :=
        if end_of_word && (isspace (peek cs) || iscntrl (peek cs)) then wNoError else l_error
      weakLoop fold l_key l_character cs l_error

/-- `weak_type` is not looked at. -/
def wgKeytreeWeakcmp (head : KeytreeHead) (_weak_type : UInt32) (str : List UInt8) :
    Except KeyFault Int :=
  weakLoop head.folds head.top none str wEOperationFailed

/-- The entries `for (l_i=0; l_i<size && l_found<l_nb_keys; l_i++)` comes upon, from `i` with
`n` entries to go and `left` of them to be found. -/
def occupied (child : Nat → Key) : (n i left : Nat) → List Nat
  | 0, _, _ => []
  | n + 1, i, left =>
    if left = 0 then []
    else if (child i).isNull then occupied child n (i + 1) left
    else i :: occupied child n (i + 1) (left - 1)

/-- The entries of one table that are shown. The loop over the other characters goes up to
`nb_keys` instead of counting the keys it finds. -/
def Table.entries (t : Table) (nb_keys : Nat) (child : Nat → Key) : List Nat :=
  if t = .other then (List.range nb_keys).filter fun i => !(child i).isNull
  else occupied child t.size 0 nb_keys

/-- The character given to `fn`: those of the other table come out as small letters. -/
def Table.shown (t : Table) (i : Nat) : UInt8 :=
  match t with
  | .other => 0x61 + .ofNat i
  | t => t.base + .ofNat i

/-- The calls of `fn` by `keytree_foreach`: the keys with their strings, in order. -/
def keytreeForeach : Key → List UInt8 → Except KeyFault (List (Key × List UInt8))
  | .null, _ => .error .nullKey
  | .key _ _ keys nb child, p_str => do
    let tables ← [Table.lower, .upper, .number, .other].mapM fun t => do
      if nb t ≠ 0 ∧ keys t = .freed then throw .freed
      if t.size < nb t ∧ t = .other then throw .table
      let below ← (t.entries (nb t) (child t)).mapM fun i => do
        if 128 ≤ p_str.length then throw .overrun
        let rest ← keytreeForeach (child t i) (p_str ++ [t.shown i])
        return (child t i, p_str ++ [t.shown i]) :: rest
      return below.flatten
    return tables.flatten

/-- `fn` does not reach the tree, and its result is not looked at. -/
def wgKeytreeForeach {σ : Type} (head : KeytreeHead) (fn : Key → List UInt8 → σ → σ) (s : σ) :
    Except KeyFault σ := do
  let calls ← keytreeForeach head.top []
  return calls.foldl (fun s call => fn call.1 call.2 s) s

end Wtools

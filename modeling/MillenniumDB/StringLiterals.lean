import MillenniumDB.QuadImport
import MillenniumDB.StringManager
import Mathlib.Data.Set.Function

/-!
# String literals in place

`normalize_string_literal` rewrites the text of a token where it is: one pointer reads, another one
writes behind it.
-/

namespace MillenniumDB

open StringManager Import

structure Lexer where
  str : Nat → UInt8
  strLen : Nat

structure Normalizing where
  str : Nat → UInt8
  strLen : Nat
  writePtr : Nat
  readPtr : Nat

namespace Normalizing

/-- `*write_ptr = c`. -/
def put (c : UInt8) (s : Normalizing) : Normalizing :=
  { s with str := Function.update s.str s.writePtr c }

def body (s : Normalizing) : Normalizing :=
  if s.str s.readPtr = 92 then
    let s := { s with readPtr := s.readPtr + 1, strLen := s.strLen - 1 }
    let s := match escaped (s.str s.readPtr) with
      | some c => s.put c
      | none =>
        let s := s.put 92
        let s := { s with writePtr := s.writePtr + 1 }
        let s := s.put (s.str s.readPtr)
        { s with strLen := s.strLen + 1 }
    { s with readPtr := s.readPtr + 1, writePtr := s.writePtr + 1 }
  else
    let s := s.put (s.str s.readPtr)
    { s with readPtr := s.readPtr + 1, writePtr := s.writePtr + 1 }

theorem body_of_char {s : Normalizing} (h : s.str s.readPtr ≠ 92) : s.body =
    { s.put (s.str s.readPtr) with readPtr := s.readPtr + 1, writePtr := s.writePtr + 1 } := by
  rw [body, if_neg h]
  rfl

theorem body_of_escaped {s : Normalizing} (h : s.str s.readPtr = 92) {c : UInt8}
    (hc : escaped (s.str (s.readPtr + 1)) = some c) : s.body =
      { s.put c with
        readPtr := s.readPtr + 2, writePtr := s.writePtr + 1, strLen := s.strLen - 1 } := by
  rw [body, if_pos h]
  simp only [hc]
  rfl

theorem body_of_unknown {s : Normalizing} (h : s.str s.readPtr = 92)
    (hc : escaped (s.str (s.readPtr + 1)) = none) : s.body =
      { str := Function.update (Function.update s.str s.writePtr 92) (s.writePtr + 1)
          (Function.update s.str s.writePtr 92 (s.readPtr + 1))
        strLen := s.strLen - 1 + 1
        writePtr := s.writePtr + 2
        readPtr := s.readPtr + 2 } := by
  rw [body, if_pos h]
  simp only [hc]
  rfl

theorem readPtr_lt_body (s : Normalizing) : s.readPtr < s.body.readPtr := by
  by_cases h : s.str s.readPtr = 92
  · cases hc : escaped (s.str (s.readPtr + 1)) with
    | none =>
      rw [body_of_unknown h hc]
      exact Nat.lt_add_of_pos_right (by decide)
    | some c =>
      rw [body_of_escaped h hc]
      exact Nat.lt_add_of_pos_right (by decide)
  · rw [body_of_char h]
    exact Nat.lt_succ_self _

/-- `while (read_ptr < end)`. -/
def loop (stop : Nat) (s : Normalizing) : Normalizing :=
  if s.readPtr < stop then loop stop s.body else s
termination_by stop - s.readPtr
decreasing_by
  have := s.readPtr_lt_body
  omega

end Normalizing

namespace Lexer

def normalizing (lexer : Lexer) : Normalizing :=
  { str := lexer.str, strLen := lexer.strLen - 2, writePtr := 0, readPtr := 1 }

/-- `end`. -/
def stop (lexer : Lexer) : Nat := lexer.normalizing.strLen + 1

def normalizeStringLiteral (lexer : Lexer) : Lexer :=
  let s := lexer.normalizing.loop lexer.stop
  { str := (s.put 0).str, strLen := s.strLen }

/-- What the lexer accepts between the quotes: `([^"\\]|\\.)*`, where a dot is no newline. -/
inductive StringContent : Bytes → Prop
  | nil : StringContent []
  | char {c : UInt8} {content : Bytes} :
    c ≠ 34 → c ≠ 92 → StringContent content → StringContent (c :: content)
  | escape {c : UInt8} {content : Bytes} :
    c ≠ 10 → StringContent content → StringContent (92 :: c :: content)

/-- The text that a content stands for: `\"`, `\\`, `\n`, `\t` and `\r` are escapes, and a backslash
before any other byte is kept with it. -/
inductive Unescapes : Bytes → Bytes → Prop
  | nil : Unescapes [] []
  | char {c : UInt8} {content text : Bytes} :
    c ≠ 92 → Unescapes content text → Unescapes (c :: content) (c :: text)
  | quote {content text : Bytes} :
    Unescapes content text → Unescapes (92 :: 34 :: content) (34 :: text)
  | backslash {content text : Bytes} :
    Unescapes content text → Unescapes (92 :: 92 :: content) (92 :: text)
  | newline {content text : Bytes} :
    Unescapes content text → Unescapes (92 :: 110 :: content) (10 :: text)
  | tab {content text : Bytes} :
    Unescapes content text → Unescapes (92 :: 116 :: content) (9 :: text)
  | carriageReturn {content text : Bytes} :
    Unescapes content text → Unescapes (92 :: 114 :: content) (13 :: text)
  | other {c : UInt8} {content text : Bytes} : c ∉ [34, 92, 110, 116, 114] →
    Unescapes content text → Unescapes (92 :: c :: content) (92 :: c :: text)

structure IsString (lexer : Lexer) (content : Bytes) : Prop where
  accepted : StringContent content
  token : bytesAt lexer.str 0 lexer.strLen = 34 :: content ++ [34]

end Lexer

namespace Normalizing

def Reaches (stop : Nat) : Normalizing → Normalizing → Prop :=
  Relation.ReflTransGen fun s s' => s.readPtr < stop ∧ s' = s.body

theorem loop_reached (stop : Nat) (s : Normalizing) :
    Reaches stop s (s.loop stop) ∧ ¬ (s.loop stop).readPtr < stop := by
  fun_induction loop stop s with
  | case1 s hlt ih => exact ⟨ih.1.head ⟨hlt, rfl⟩, ih.2⟩
  | case2 s hge => exact ⟨.refl, hge⟩

structure Between (str : Nat → UInt8) (stop : Nat) (s : Normalizing) (written rest : Bytes) : Prop where
  accepted : Lexer.StringContent rest
  stop : s.readPtr + rest.length = stop
  unread : ∀ i, s.readPtr ≤ i → s.str i = str i
  ahead : bytesAt str s.readPtr rest.length = rest
  behind : bytesAt s.str 0 s.writePtr = written
  lt : s.writePtr < s.readPtr
  strLen : s.strLen = s.writePtr + rest.length

theorem bytesAt_update (str : Nat → UInt8) (writePtr : Nat) (c : UInt8) :
    bytesAt (Function.update str writePtr c) 0 (writePtr + 1) = bytesAt str 0 writePtr ++ [c] := by
  rw [bytesAt_add, Nat.zero_add]
  congr 1
  · apply List.map_congr_left
    intro i hi
    rw [List.mem_range] at hi
    exact Function.update_of_ne (by omega) _ _
  · simp [bytesAt]

theorem bytesAt_cons {str : Nat → UInt8} {offset : Nat} {c : UInt8} {rest : Bytes}
    (h : bytesAt str offset (c :: rest).length = c :: rest) :
    str offset = c ∧ bytesAt str (offset + 1) rest.length = rest := by
  rw [List.length_cons, bytesAt_succ] at h
  exact List.cons.inj h

theorem unescape_char {c : UInt8} (hc : c ≠ 92) (rest : Bytes) :
    unescape (c :: rest) = c :: unescape rest := by
  cases rest with
  | nil => rfl
  | cons d rest => rw [unescape, if_neg hc]

theorem unescape_known {c d : UInt8} (h : escaped c = some d) (rest : Bytes) :
    unescape (92 :: c :: rest) = d :: unescape rest := by
  rw [unescape, if_pos rfl, h]

theorem unescape_unknown {c : UInt8} (h : escaped c = none) (rest : Bytes) :
    unescape (92 :: c :: rest) = 92 :: c :: unescape rest := by
  rw [unescape, if_pos rfl, h]

theorem Between.body {str : Nat → UInt8} {stop : Nat} {s : Normalizing} {written rest : Bytes}
    (h : Between str stop s written rest) (hlt : s.readPtr < stop) : ∃ written' rest',
      Between str stop s.body written' rest' ∧
        written' ++ unescape rest' = written ++ unescape rest := by
  have hstop := h.stop
  have hptrs := h.lt
  have hlength := h.strLen
  have hwritten := h.behind
  have hunread := h.unread
  have hahead := h.ahead
  cases h.accepted with
  | nil =>
    rw [List.length_nil] at hstop
    omega
  | char hquote hslash hrest =>
    rename_i c rest
    obtain ⟨hc, hahead⟩ := bytesAt_cons hahead
    have hread : s.str s.readPtr = c := by rw [hunread _ (Nat.le_refl _), hc]
    rw [List.length_cons] at hstop hlength
    rw [body_of_char (hread ▸ hslash), put, hread]
    refine ⟨written ++ [c], rest, ⟨hrest, ?_, fun i hi => ?_, hahead, ?_, ?_, ?_⟩, ?_⟩
    · dsimp only
      omega
    · dsimp only at hi ⊢
      rw [Function.update_of_ne (by omega)]
      exact hunread i (by omega)
    · rw [bytesAt_update, hwritten]
    · dsimp only
      omega
    · dsimp only
      omega
    · rw [unescape_char hslash, List.append_assoc, List.singleton_append]
  | escape hnewline hrest =>
    rename_i c rest
    obtain ⟨hslash, hahead⟩ := bytesAt_cons hahead
    obtain ⟨hc, hahead⟩ := bytesAt_cons hahead
    have hread : s.str s.readPtr = 92 := by rw [hunread _ (Nat.le_refl _), hslash]
    have hnext : s.str (s.readPtr + 1) = c := by rw [hunread _ (by omega), hc]
    rw [List.length_cons, List.length_cons] at hstop hlength
    cases hescaped : escaped c with
    | some d =>
      rw [body_of_escaped hread (hnext ▸ hescaped), put]
      refine ⟨written ++ [d], rest, ⟨hrest, ?_, fun i hi => ?_, hahead, ?_, ?_, ?_⟩, ?_⟩
      · dsimp only
        omega
      · dsimp only at hi ⊢
        rw [Function.update_of_ne (by omega)]
        exact hunread i (by omega)
      · rw [bytesAt_update, hwritten]
      · dsimp only
        omega
      · dsimp only
        omega
      · rw [unescape_known hescaped, List.append_assoc, List.singleton_append]
    | none =>
      -- the backslash is written before the next byte is read, which is still ahead
      have hkept : Function.update s.str s.writePtr 92 (s.readPtr + 1) = c := by
        rw [Function.update_of_ne (by omega), hnext]
      rw [body_of_unknown hread (hnext ▸ hescaped), hkept]
      refine ⟨written ++ [92] ++ [c], rest, ⟨hrest, ?_, fun i hi => ?_, hahead, ?_, ?_, ?_⟩, ?_⟩
      · dsimp only
        omega
      · dsimp only at hi ⊢
        rw [Function.update_of_ne (by omega), Function.update_of_ne (by omega)]
        exact hunread i (by omega)
      · rw [bytesAt_update, bytesAt_update, hwritten]
      · dsimp only
        omega
      · dsimp only
        omega
      · rw [unescape_unknown hescaped]
        simp

theorem Between.reaches {str : Nat → UInt8} {stop : Nat} {s s' : Normalizing} {written rest : Bytes}
    (h : Between str stop s written rest) (hreaches : Reaches stop s s') : ∃ written' rest',
      Between str stop s' written' rest' ∧
        written' ++ unescape rest' = written ++ unescape rest := by
  induction hreaches with
  | refl => exact ⟨written, rest, h, rfl⟩
  | tail _ hstep ih =>
    obtain ⟨written', rest', hbetween, heq⟩ := ih
    obtain ⟨hlt, rfl⟩ := hstep
    obtain ⟨written'', rest'', hbody, hwritten⟩ := hbetween.body hlt
    exact ⟨written'', rest'', hbody, hwritten.trans heq⟩

end Normalizing

namespace Lexer

variable {lexer : Lexer} {content : Bytes}

theorem IsString.strLen (h : lexer.IsString content) : lexer.strLen = content.length + 2 := by
  have hlength := congrArg List.length h.token
  rw [length_bytesAt] at hlength
  simpa using hlength

theorem IsString.between (h : lexer.IsString content) :
    Normalizing.Between lexer.str lexer.stop lexer.normalizing [] content := by
  have hlength := h.strLen
  have htoken := h.token
  rw [hlength, show content.length + 2 = content.length + 1 + 1 from rfl, List.cons_append,
    bytesAt_succ] at htoken
  have hrest := (List.cons.inj htoken).2
  rw [bytesAt_add] at hrest
  have hcontent := (List.append_inj hrest (length_bytesAt _ _ _)).1
  refine ⟨h.accepted, ?_, fun _ _ => rfl, hcontent, rfl, Nat.one_pos, ?_⟩
  · rw [stop, normalizing]
    dsimp only
    omega
  · rw [normalizing]
    dsimp only
    omega

theorem IsString.normalized (h : lexer.IsString content) :
    lexer.normalizeStringLiteral.strLen = (unescape content).length ∧
    bytesAt lexer.normalizeStringLiteral.str 0 lexer.normalizeStringLiteral.strLen =
      unescape content ∧
    lexer.normalizeStringLiteral.str lexer.normalizeStringLiteral.strLen = 0 := by
  obtain ⟨hreached, hend⟩ := Normalizing.loop_reached lexer.stop lexer.normalizing
  obtain ⟨written, rest, hbetween, heq⟩ := h.between.reaches hreached
  have hstop := hbetween.stop
  have hnil : rest = [] := List.eq_nil_of_length_eq_zero (by omega)
  rw [hnil, unescape, List.append_nil, List.nil_append] at heq
  have hlength := hbetween.strLen
  rw [hnil, List.length_nil, Nat.add_zero] at hlength
  have hwritten := hbetween.behind
  have hcount := congrArg List.length hwritten
  rw [length_bytesAt, heq] at hcount
  rw [normalizeStringLiteral]
  dsimp only [Normalizing.put]
  rw [hlength, hcount]
  refine ⟨rfl, ?_, Function.update_self _ _ _⟩
  conv_rhs => rw [← heq, ← hwritten, hcount]
  apply List.map_congr_left
  intro i hi
  rw [List.mem_range] at hi
  exact Function.update_of_ne (by omega) _ _

/-- The table of `normalize_string_literal` has the escapes. -/
theorem unescapes_escape (c : UInt8) {content text : Bytes} (h : Unescapes content text) :
    Unescapes (92 :: c :: content) (((escaped c).elim [92, c] fun d => [d]) ++ text) := by
  by_cases hknown : c ∈ [34, 92, 110, 116, 114]
  · simp only [List.mem_cons, List.not_mem_nil, or_false] at hknown
    rcases hknown with rfl | rfl | rfl | rfl | rfl
    · exact .quote h
    · exact .backslash h
    · exact .newline h
    · exact .tab h
    · exact .carriageReturn h
  · have hnone : escaped c = none := by
      simp only [List.mem_cons, List.not_mem_nil, or_false, not_or] at hknown
      obtain ⟨h34, h92, h110, h116, h114⟩ := hknown
      rw [escaped, if_neg h34, if_neg h92, if_neg h110, if_neg h116, if_neg h114]
    rw [hnone]
    exact .other hknown h

theorem StringContent.unescapes (h : StringContent content) :
    Unescapes content (unescape content) := by
  induction h with
  | nil => exact .nil
  | @char c content _ hslash _ ih =>
    rw [Normalizing.unescape_char hslash]
    exact .char hslash ih
  | @escape c content _ _ ih =>
    have hescape := unescapes_escape c ih
    cases hc : escaped c with
    | none =>
      rw [hc] at hescape
      rwa [Normalizing.unescape_unknown hc]
    | some d =>
      rw [hc] at hescape
      rwa [Normalizing.unescape_known hc]

/-- The literal is its content without the escapes, with a zero after it.  The write pointer stays
behind the read pointer, and nothing is written that is still to be read. -/
theorem normalizes_in_place (h : lexer.IsString content) : ∃ text, Unescapes content text ∧
    lexer.normalizeStringLiteral.strLen = text.length ∧
    bytesAt lexer.normalizeStringLiteral.str 0 lexer.normalizeStringLiteral.strLen = text ∧
    lexer.normalizeStringLiteral.str lexer.normalizeStringLiteral.strLen = 0 ∧
    ∀ s, Normalizing.Reaches lexer.stop lexer.normalizing s →
      s.writePtr < s.readPtr ∧ ∀ i, s.readPtr ≤ i → s.str i = lexer.str i := by
  obtain ⟨hlength, htext, hzero⟩ := h.normalized
  refine ⟨_, h.accepted.unescapes, hlength, htext, hzero, fun s hs => ?_⟩
  obtain ⟨_, _, hbetween, _⟩ := h.between.reaches hs
  exact ⟨hbetween.lt, hbetween.unread⟩

/-- A letter, an escaped newline and an escape that is none. -/
theorem normalizes_newline : ∃ text, Unescapes [97, 92, 110, 92, 120] text ∧
    bytesAt (normalizeStringLiteral ⟨fun i => [34, 97, 92, 110, 92, 120, 34].getD i 0, 7⟩).str 0
      text.length = text ∧ text = [97, 10, 92, 120] := by
  have hstring : IsString ⟨fun i => [34, 97, 92, 110, 92, 120, 34].getD i 0, 7⟩
      [97, 92, 110, 92, 120] :=
    ⟨.char (by decide) (by decide) (.escape (by decide) (.escape (by decide) .nil)), rfl⟩
  obtain ⟨text, hunescapes, hlength, htext, _⟩ := normalizes_in_place hstring
  rw [hlength] at htext
  refine ⟨text, hunescapes, htext, ?_⟩
  cases hunescapes with
  | char _ h =>
    cases h with
    | char h => exact absurd rfl h
    | other h => exact absurd h (by decide)
    | newline h =>
      cases h with
      | char h => exact absurd rfl h
      | other _ h =>
        cases h
        rfl

end Lexer

end MillenniumDB

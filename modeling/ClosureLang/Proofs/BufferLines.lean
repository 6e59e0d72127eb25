import ClosureLang.Proofs.PrintingInvisible
import Mathlib.Data.List.DropRight

/-!
# What a buffer gives back

A buffer is one text. What was printed to it since it was last cleared is all that it holds, each
message ended by a newline, and its lines are that text cut up again. A message is found among
them whole if it could not be taken for a line's end anywhere: a newline inside it cuts it in two,
and a carriage return at its end is lost, since it then stands right before a newline.

`splitLines_message` is the step: the lines of a message and what follows it are the pieces of the
message, and then the lines of what follows. The rest is by induction on the messages.
-/

namespace ClosureLang

/-! ## Calls -/

/-- What is done to a buffer. -/
inductive BufferCall where
  | println (message : String)
  | clear

namespace BufferCall

def perform (s : Sink) : BufferCall → Sink
  | println message => s.println message
  | clear => s.clear

def message? : BufferCall → Option String
  | println message => some message
  | clear => none

/-- The messages after the last `clear`. -/
def kept (calls : List BufferCall) : List String :=
  (calls.rtakeWhile (·.message?.isSome)).filterMap message?

theorem kept_println (calls : List BufferCall) (message : String) :
    kept (calls ++ [println message]) = kept calls ++ [message] := by
  simp [kept, message?]

theorem kept_clear (calls : List BufferCall) : kept (calls ++ [clear]) = [] := by
  simp [kept, message?]

end BufferCall

namespace Sink

/-- The calls one after another. -/
def performAll (s : Sink) (calls : List BufferCall) : Sink := calls.foldl BufferCall.perform s

/-- **A buffer holds the messages after the last `clear`.** -/
theorem performAll_buffer (calls : List BufferCall) :
    (buffer "").performAll calls = (buffer "").printAll (BufferCall.kept calls) := by
  induction calls using List.reverseRecOn with
  | nil => rfl
  | append_singleton calls call ih =>
    rw [performAll, List.foldl_concat, ← performAll, ih]
    cases call with
    | println message =>
      rw [BufferCall.kept_println, printAll_concat]
      rfl
    | clear =>
      rw [BufferCall.kept_clear, printAll_buffer]
      rfl

/-! ## Lines -/

/-- A piece without one carriage return at its end. -/
def trimReturn (piece : List Char) : List Char :=
  if piece.getLast? = some '\r' then piece.dropLast else piece

/-- A message split at its newlines, each piece trimmed. -/
def pieces (message : String) : List String :=
  (message.toList.splitOn '\n').map fun piece => String.ofList (trimReturn piece)

theorem trimReturn_cons {c : Char} {piece : List Char} (h : piece ≠ [] ∨ c ≠ '\r') :
    trimReturn (c :: piece) = c :: trimReturn piece := by
  cases piece with
  | nil =>
    have hc : c ≠ '\r' := by simpa using h
    simp [trimReturn, hc]
  | cons d piece =>
    unfold trimReturn
    rw [List.getLast?_cons_cons]
    split <;> rfl

/-- Only a carriage return that ends a piece is lost. -/
theorem trimReturn_eq_self {piece : List Char} :
    trimReturn piece = piece ↔ piece.getLast? ≠ some '\r' := by
  unfold trimReturn
  split
  · rename_i h
    have hne : piece ≠ [] := by
      rintro rfl
      cases h
    refine iff_of_false (fun heq => ?_) (not_not.mpr h)
    have hlength := congrArg List.length heq
    rw [List.length_dropLast] at hlength
    have := List.length_pos_iff.mpr hne
    omega
  · rename_i h
    exact iff_of_true rfl h

theorem splitLines_newline (rest : List Char) :
    splitLines ('\n' :: rest) = [] :: splitLines rest := by
  rw [splitLines]

theorem splitLines_return (rest : List Char) :
    splitLines ('\r' :: '\n' :: rest) = [] :: splitLines rest := by
  rw [splitLines]

/-- A character that is no part of a line's end belongs to the line. -/
theorem splitLines_cons {c : Char} {rest line : List Char} {lines : List (List Char)}
    (hn : c ≠ '\n') (hr : c = '\r' → rest.head? ≠ some '\n')
    (h : splitLines rest = line :: lines) : splitLines (c :: rest) = (c :: line) :: lines := by
  rw [splitLines, h]
  · exact hn
  · rintro tail rfl rfl
    exact hr rfl rfl

/-- The first piece is empty where the line ends at once. -/
theorem first_piece_eq_nil {cs piece : List Char} {others : List (List Char)} (rest : List Char)
    (h : cs.splitOn '\n' = piece :: others) :
    piece = [] ↔ (cs ++ '\n' :: rest).head? = some '\n' := by
  cases cs with
  | nil =>
    obtain ⟨rfl, -⟩ := List.cons.inj ((List.splitOn_nil '\n').symm.trans h)
    simp
  | cons c cs =>
    rw [List.splitOn_cons_eq_if_modifyHead] at h
    by_cases hc : c = '\n'
    · rw [if_pos (by simpa using hc)] at h
      obtain ⟨rfl, -⟩ := List.cons.inj h
      simp [hc]
    · obtain ⟨q, qs, hq⟩ := List.exists_cons_of_ne_nil (List.splitOn_ne_nil '\n' cs)
      rw [if_neg (by simpa using hc), hq, List.modifyHead_cons] at h
      obtain ⟨rfl, -⟩ := List.cons.inj h
      simp [hc]

/-- **The lines of a message and of what follows it.** -/
theorem splitLines_message (cs rest : List Char) :
    splitLines (cs ++ '\n' :: rest) = (cs.splitOn '\n').map trimReturn ++ splitLines rest := by
  induction cs with
  | nil => rw [List.nil_append, splitLines_newline, List.splitOn_nil]; rfl
  | cons c cs ih =>
    rw [List.splitOn_cons_eq_if_modifyHead, List.cons_append]
    by_cases hc : c = '\n'
    · subst hc
      rw [splitLines_newline, ih]
      rfl
    · obtain ⟨piece, others, hsplit⟩ := List.exists_cons_of_ne_nil (List.splitOn_ne_nil '\n' cs)
      have hempty := first_piece_eq_nil rest hsplit
      rw [if_neg (by simpa using hc), hsplit, List.modifyHead_cons, List.map_cons, List.cons_append]
      rw [hsplit, List.map_cons, List.cons_append] at ih
      by_cases hend : c = '\r' ∧ piece = []
      · -- The carriage return and the newline after it end a line together.
        obtain ⟨rfl, rfl⟩ := hend
        obtain ⟨tail, htail⟩ := List.head?_eq_some_iff.mp (hempty.mp rfl)
        rw [htail, splitLines_newline] at ih
        rw [htail, splitLines_return, (List.cons.inj ih).2]
        rfl
      · rw [trimReturn_cons (by tauto)]
        exact splitLines_cons hc (fun hr hhead => hend ⟨hr, hempty.mpr hhead⟩) ih

/-- Where the piece is the only one and nothing is lost, the message comes back. -/
theorem pieces_eq_singleton {message : String} : pieces message = [message] ↔
    '\n' ∉ message.toList ∧ message.toList.getLast? ≠ some '\r' := by
  unfold pieces
  constructor
  · intro h
    obtain ⟨piece, hsplit, hpiece⟩ := List.map_eq_singleton_iff.mp h
    have hwhole : ['\n'].intercalate (message.toList.splitOn '\n') = message.toList :=
      List.intercalate_splitOn '\n'
    obtain rfl : piece = message.toList := by
      rw [← hwhole, hsplit]
      simp
    refine ⟨fun hmem => ?_, ?_⟩
    · -- Around a newline there are two pieces at least.
      obtain ⟨before, after, hbefore⟩ := List.append_of_mem hmem
      rw [hbefore, List.splitOn_append_cons_self] at hsplit
      have hlength := congrArg List.length hsplit
      rw [List.length_append, List.length_singleton] at hlength
      have h₁ := List.length_pos_iff.mpr (List.splitOn_ne_nil '\n' before)
      have h₂ := List.length_pos_iff.mpr (List.splitOn_ne_nil '\n' after)
      omega
    · rw [← trimReturn_eq_self, ← String.toList_ofList (l := trimReturn _), hpiece]
  · rintro ⟨hmem, hlast⟩
    rw [List.splitOn_eq_singleton hmem, List.map_singleton, trimReturn_eq_self.mpr hlast,
      String.ofList_toList]

theorem pieces_ne_nil (message : String) : pieces message ≠ [] := by
  simp [pieces, List.splitOn_ne_nil]

theorem length_le_flatMap_pieces (messages : List String) :
    messages.length ≤ (messages.flatMap pieces).length := by
  induction messages with
  | nil => exact Nat.le_refl 0
  | cons m messages ih =>
    have hm := List.length_pos_iff.mpr (pieces_ne_nil m)
    rw [List.flatMap_cons, List.length_append, List.length_cons]
    omega

/-- Messages come back when each of them does: no message has fewer pieces than one, so one that
has more is not made up for. -/
theorem flatMap_pieces_eq_self {messages : List String} :
    messages.flatMap pieces = messages ↔ ∀ m ∈ messages, pieces m = [m] := by
  induction messages with
  | nil => simp
  | cons m messages ih =>
    rw [List.forall_mem_cons, List.flatMap_cons, ← ih]
    constructor
    · intro h
      obtain ⟨first, others, hm⟩ := List.exists_cons_of_ne_nil (pieces_ne_nil m)
      rw [hm, List.cons_append] at h
      obtain ⟨rfl, hrest⟩ := List.cons.inj h
      have hlength := congrArg List.length hrest
      rw [List.length_append] at hlength
      have hle := length_le_flatMap_pieces messages
      obtain rfl : others = [] := List.length_eq_zero_iff.mp (by omega)
      exact ⟨hm, hrest⟩
    · rintro ⟨hm, hrest⟩
      rw [hm, hrest]
      rfl

theorem lines_buffer (messages : List String) :
    (buffer (String.join (messages.map (· ++ "\n")))).lines = messages.flatMap pieces := by
  have hsplit : splitLines (messages.flatMap fun m => m.toList ++ ['\n']) =
      messages.flatMap fun m => (m.toList.splitOn '\n').map trimReturn := by
    induction messages with
    | nil => rfl
    | cons m messages ih =>
      rw [List.flatMap_cons, List.flatMap_cons, List.append_assoc, List.singleton_append,
        splitLines_message, ih]
  have htext : (String.join (messages.map (· ++ "\n"))).toList =
      messages.flatMap fun m => m.toList ++ ['\n'] := by
    simp [String.toList_join, List.flatMap_map]
  rw [lines, output, htext, hsplit, List.map_flatMap]
  simp only [List.map_map]
  rfl

end Sink

/-- **Lines mirror what was printed.** After any calls a buffer holds the messages since the last
`clear`, each ended by a newline, and its lines are their pieces, in order. They are the messages
themselves when no message has a newline in it or a carriage return at its end, and only then. -/
theorem captured_lines (calls : List BufferCall) :
    let s := (Sink.buffer "").performAll calls
    let messages := BufferCall.kept calls
    s.output = String.join (messages.map (· ++ "\n")) ∧
    s.lines = messages.flatMap Sink.pieces ∧
    (s.lines = messages ↔
      ∀ m ∈ messages, '\n' ∉ m.toList ∧ m.toList.getLast? ≠ some '\r') := by
  intro s messages
  have hs : s = .buffer (String.join (messages.map (· ++ "\n"))) := by
    rw [← String.empty_append (s := String.join _), ← Sink.printAll_buffer]
    exact Sink.performAll_buffer calls
  have hlines : s.lines = messages.flatMap Sink.pieces := by
    rw [hs]
    exact Sink.lines_buffer messages
  refine ⟨by rw [hs]; rfl, hlines, ?_⟩
  rw [hlines, Sink.flatMap_pieces_eq_self]
  exact forall₂_congr fun m _ => Sink.pieces_eq_singleton

/-- A carriage return is lost where a message ends, and a newline ends a line anywhere. -/
example : ((Sink.buffer "").performAll
    [.println "dropped", .clear, .println "a\rb\r\nc", .println "", .println "d\r"]).lines =
      ["a\rb", "c", "", "d"] := by decide

end ClosureLang

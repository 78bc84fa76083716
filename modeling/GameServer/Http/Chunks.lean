import GameServer.Http.Head

/-!
# Chunked responses

Bytes of the body that came with the head are cut at line ends (`piecesLoop`); from there on the client
reads a size line into a window of six bytes (`Line`), and then the rest of the chunk (`Content`). The
first window is what the head left of the buffer, if no size line came with the head.

The cut goes wrong when a chunk's content has a line end, and when the bytes end between a chunk's
content and its size line; the window goes wrong when the whole chunk fits into it without filling it.
Without these every split of the response is decoded (`chunks_served`).
-/

namespace GameServer.Http

open GameServer.Lib

/-- The number that hex digits write. -/
def hexNumber (digits : List UInt8) : Nat := digits.foldl (fun n c => 16 * n + (hexDigit c).getD 0) 0

structure Chunk where
  digits : List UInt8
  content : List UInt8
  deriving DecidableEq, Repr

namespace Chunk

def bytes (chunk : Chunk) : List UInt8 := chunk.digits ++ (CRLF ++ (chunk.content ++ CRLF))

/-- One to four hex digits that write the size of a content that is not empty. -/
structure WellFormed (chunk : Chunk) : Prop where
  some : chunk.digits ≠ []
  four : chunk.digits.length ≤ 4
  hex : ∀ c ∈ chunk.digits, (hexDigit c).isSome
  size : hexNumber chunk.digits = chunk.content.length
  nonempty : chunk.content ≠ []

/-- The chunk does not fit into a window of so many bytes, or fills it. -/
def Fits (window : Nat) (chunk : Chunk) : Prop :=
  window < chunk.digits.length + 2 + chunk.content.length ∨ window = chunk.bytes.length

instance (window : Nat) (chunk : Chunk) : Decidable (chunk.Fits window) := inferInstanceAs (Decidable (_ ∨ _))

end Chunk

/-- The zero chunk. -/
def lastChunk : List UInt8 := 48 :: (CRLF ++ CRLF)

/-- The body on the wire. -/
def chunked (chunks : List Chunk) : List UInt8 := chunks.flatMap Chunk.bytes ++ lastChunk

def contents (chunks : List Chunk) : List UInt8 := chunks.flatMap Chunk.content

/-- The first `e` bytes of the body can be cut into size lines and contents, and the client can go on from
there. -/
def Cuts : Nat → List Chunk → Prop
  | _, [] => True
  | e, chunk :: rest =>
    if e < chunk.digits.length + 2 then
      -- They end in the size line: not before its first digit, and not behind four digits and a CR.
      (∀ later ∈ chunk :: rest, later.Fits 6) ∧
        if e ≤ chunk.digits.length then hexNumber (chunk.digits.take e) ≠ 0 else chunk.digits.length < 4
    else if e < chunk.digits.length + 2 + chunk.content.length then
      (∀ later ∈ rest, later.Fits 6) ∧ findSub CRLF (chunk.content.take (e - (chunk.digits.length + 2))) = none
    else chunk.bytes.length ≤ e ∧ findSub CRLF chunk.content = none ∧ Cuts (e - chunk.bytes.length) rest

/-- The first `e` bytes of the body, which came with a head that leaves a window of so many bytes. -/
def Starts (window e : Nat) : List Chunk → Prop
  | [] => True
  | chunk :: rest =>
    if e < chunk.digits.length + 2 then chunk.Fits window ∧ ∀ later ∈ rest, later.Fits 6 else Cuts e (chunk :: rest)

section Numbers

variable {digits : List UInt8} {chunk : Chunk} {chunks : List Chunk}

theorem hexDigit_lt {c : UInt8} {n : Nat} (digit : hexDigit c = some n) : n < 16 := by
  unfold hexDigit at digit
  simp only [UInt8.le_iff_toNat_le] at digit
  have low : (48 : UInt8).toNat = 48 ∧ (57 : UInt8).toNat = 57 ∧ (97 : UInt8).toNat = 97 ∧ (102 : UInt8).toNat = 102 ∧
    (65 : UInt8).toNat = 65 ∧ (70 : UInt8).toNat = 70 := ⟨rfl, rfl, rfl, rfl, rfl, rfl⟩
  split_ifs at digit <;> have := Option.some.inj digit <;> omega

/-- The loop reads a number that is not too long, and what stands behind it multiplies it by 16. -/
theorem hexLoop_append (hex : ∀ c ∈ digits, (hexDigit c).isSome) (tail : List UInt8) (n : Nat)
    (small : (n + 1) * 16 ^ digits.length ≤ 2 ^ 31) :
    hexLoop n (digits ++ tail) = hexLoop (digits.foldl (fun n c => 16 * n + (hexDigit c).getD 0) n : Nat) tail ∧
    digits.foldl (fun n c => 16 * n + (hexDigit c).getD 0) n < (n + 1) * 16 ^ digits.length := by
  induction digits generalizing n with
  | nil => exact ⟨rfl, by simp⟩
  | cons c cs ih =>
    obtain ⟨d, digit⟩ := Option.isSome_iff_exists.1 (hex c List.mem_cons_self)
    have less := hexDigit_lt digit
    rw [List.length_cons, Nat.pow_succ] at small
    have bound : (16 * n + d + 1) * 16 ^ cs.length ≤ (n + 1) * (16 ^ cs.length * 16) := by
      rw [Nat.mul_comm (16 ^ cs.length) 16, ← Nat.mul_assoc]
      exact Nat.mul_le_mul_right _ (by omega)
    have pos : 1 ≤ 16 ^ cs.length := Nat.one_le_pow _ _ (by decide)
    have value : 16 * n + d + 1 ≤ (16 * n + d + 1) * 16 ^ cs.length := Nat.le_mul_of_pos_right _ pos
    have exact' : toInt32 ((n : Int) * 16 + (d : Nat)) = (16 * n + d : Nat) := by
      rw [toInt32_eq] <;> omega
    obtain ⟨loop, most⟩ := ih (fun x mem => hex x (List.mem_cons_of_mem c mem)) (16 * n + d) (Nat.le_trans bound small)
    refine ⟨?_, ?_⟩
    · rw [List.cons_append, hexLoop, digit, List.foldl_cons, digit]
      simp only [Option.getD_some]
      rw [exact', loop]
    · rw [List.foldl_cons, digit, List.length_cons, Nat.pow_succ]
      exact Nat.lt_of_lt_of_le most bound

theorem hexLoop_digits (hex : ∀ c ∈ digits, (hexDigit c).isSome) (four : digits.length ≤ 4) (tail : List UInt8) :
    hexLoop 0 (digits ++ tail) = hexLoop (hexNumber digits : Nat) tail ∧ hexNumber digits < 16 ^ 4 := by
  have most : 16 ^ digits.length ≤ 16 ^ 4 := Nat.pow_le_pow_right (by decide) four
  obtain ⟨loop, less⟩ := hexLoop_append hex tail 0 (by omega)
  exact ⟨loop, by rw [hexNumber]; omega⟩

theorem CR_not_mem (hex : ∀ c ∈ digits, (hexDigit c).isSome) : CR ∉ digits := by
  intro mem
  have := hex CR mem
  cases this

theorem Chunk.WellFormed.hexLoop (wf : chunk.WellFormed) : hexLoop 0 chunk.digits = chunk.content.length := by
  have loop := (hexLoop_digits wf.hex wf.four []).1
  rw [List.append_nil, wf.size] at loop
  exact loop

theorem Chunk.length_bytes : chunk.bytes.length = chunk.digits.length + 2 + chunk.content.length + 2 := by
  simp [Chunk.bytes, CRLF]
  omega

/-- The digits of the next chunk, and what comes after its size line. -/
def sizeLine : List Chunk → List UInt8
  | [] => [48]
  | chunk :: _ => chunk.digits

def afterLine : List Chunk → List UInt8
  | [] => CRLF
  | chunk :: rest => chunk.content ++ (CRLF ++ chunked rest)

theorem chunked_cons (chunk : Chunk) (rest : List Chunk) : chunked (chunk :: rest) = chunk.bytes ++ chunked rest := by
  simp [chunked]

theorem chunked_eq (chunks : List Chunk) : chunked chunks = sizeLine chunks ++ (CRLF ++ afterLine chunks) := by
  cases chunks with
  | nil => rfl
  | cons chunk rest =>
    rw [chunked_cons, Chunk.bytes]
    simp [sizeLine, afterLine]

theorem CR_not_mem_sizeLine (wf : ∀ chunk ∈ chunks, chunk.WellFormed) : CR ∉ sizeLine chunks := by
  cases chunks with
  | nil => decide
  | cons chunk rest => exact CR_not_mem (wf chunk List.mem_cons_self).hex

theorem length_sizeLine (wf : ∀ chunk ∈ chunks, chunk.WellFormed) : 1 ≤ (sizeLine chunks).length ∧ (sizeLine chunks).length ≤ 4 := by
  cases chunks with
  | nil => decide
  | cons chunk rest =>
    have good := wf chunk List.mem_cons_self
    exact ⟨List.length_pos_of_ne_nil good.some, good.four⟩

/-- The size line is found when it came whole. -/
theorem findSub_chunked (wf : ∀ chunk ∈ chunks, chunk.WellFormed) (e : Nat) :
    findSub CRLF ((chunked chunks).take e) = if (sizeLine chunks).length + 2 ≤ e then some (sizeLine chunks).length else none := by
  have found : findSub CRLF (chunked chunks) = some (sizeLine chunks).length := by
    rw [chunked_eq, findSub_append_of_not_mem (c := CR) rfl (CR_not_mem_sizeLine wf), findSub_append_left]
    simp
  exact findSub_take (by decide) found e

theorem length_chunked (chunks : List Chunk) : (sizeLine chunks).length + 4 ≤ (chunked chunks).length := by
  cases chunks with
  | nil => decide
  | cons chunk rest =>
    rw [chunked_cons, List.length_append, Chunk.length_bytes]
    show chunk.digits.length + 4 ≤ _
    omega

/-- A content without a line end is a piece of its own, also when it ends in a carriage return. -/
theorem pieces_content {content : List UInt8} (none : findSub CRLF content = none) (tail : List UInt8) :
    pieces CRLF (content ++ (CRLF ++ tail)) = content :: pieces CRLF tail := by
  have absent := (findSub_eq_none_iff (by decide)).1 none
  have found : findSub CRLF (content ++ (CRLF ++ tail)) = some content.length := by
    refine findSub_eq_some_iff.2 ⟨by simp, ?_, fun j less here => ?_⟩
    · rw [List.drop_left]
      exact List.prefix_append _ _
    · rw [List.drop_append_of_le_length (Nat.le_of_lt less)] at here
      have pos : 0 < (content.drop j).length := by
        rw [List.length_drop]
        omega
      match rest : content.drop j with
      | [] =>
        rw [rest] at pos
        exact absurd pos (by decide)
      | [c] =>
        rw [rest] at here
        have second := (List.cons_prefix_cons.1 (List.cons_prefix_cons.1 here).2).1
        exact absurd second (by decide)
      | c :: d :: more =>
        apply absent j
        rw [rest] at here ⊢
        obtain ⟨first, here⟩ := List.cons_prefix_cons.1 here
        obtain ⟨second, -⟩ := List.cons_prefix_cons.1 here
        exact List.cons_prefix_cons.2 ⟨first, List.cons_prefix_cons.2 ⟨second, List.nil_prefix⟩⟩
  rw [pieces_eq_cons (by decide) found, List.take_left, ← List.drop_drop, List.drop_left]
  rfl

end Numbers

/-- The window takes the next chunk, and six bytes the later ones. -/
def WindowFits (window : Nat) : List Chunk → Prop
  | [] => True
  | chunk :: rest => chunk.Fits window ∧ ∀ later ∈ rest, later.Fits 6

/-- `o` bytes of the next chunk are in the window, without its size line. -/
structure Line (window o : Nat) (chunks : List Chunk) (body : List UInt8) (c : Connect) : Prop where
  length : c._data.length = window
  wide : 6 ≤ window
  early : o < (sizeLine chunks).length + 2
  taken : c._data.take o = (chunked chunks).take o
  off : c.off = o
  reads : c.reads = [⟨.on_read_body_no_length_head, o, window - o⟩]
  body : c._response.body = body
  callbacks : c.callbacks = []
  fits : WindowFits window chunks

/-- `o` bytes of the chunk are in a buffer of its length. -/
structure Content (o : Nat) (chunk : Chunk) (rest : List Chunk) (body : List UInt8) (c : Connect) : Prop where
  length : c._data.length = chunk.bytes.length
  bound : o ≤ chunk.bytes.length
  taken : c._data.take o = chunk.bytes.take o
  off : c.off = o
  reads : c.reads = [⟨.on_read_body_no_length_body, o, chunk.bytes.length - o⟩]
  body : c._response.body = body
  callbacks : c.callbacks = []
  fits : ∀ later ∈ rest, later.Fits 6

/-- The client is in a size line or in a chunk, with the contents before it in the response, or it has
called back. -/
inductive Decoding (total rest : List UInt8) (c : Connect) : Prop where
  | line (window o : Nat) (chunks : List Chunk) (body : List UInt8) (good : ∀ chunk ∈ chunks, chunk.WellFormed)
      (sum : body ++ contents chunks = total) (left : rest = (chunked chunks).drop o) (line : Line window o chunks body c)
  | content (o : Nat) (chunk : Chunk) (chunks : List Chunk) (body : List UInt8)
      (good : ∀ later ∈ chunk :: chunks, later.WellFormed) (sum : body ++ contents (chunk :: chunks) = total)
      (left : rest = (chunked (chunk :: chunks)).drop o) (content : Content o chunk chunks body c)
  | ended (reads : c.reads = []) (callbacks : c.callbacks = [total]) (body : c._response.body = total)

section Steps

variable {window o n : Nat} {chunk : Chunk} {chunks : List Chunk} {body : List UInt8} {c : Connect}

theorem contents_cons (chunk : Chunk) (rest : List Chunk) : contents (chunk :: rest) = chunk.content ++ contents rest := by
  simp [contents]

/-- The state in which the handler of the read runs. -/
theorem Line.filled (line : Line window o chunks body c) (room : o + n ≤ window) (left : o + n ≤ (chunked chunks).length) :
    (c.filled o (((chunked chunks).drop o).take n) [])._data.length = window ∧
    (c.filled o (((chunked chunks).drop o).take n) [])._data.take (o + n) = (chunked chunks).take (o + n) ∧
    (c.filled o (((chunked chunks).drop o).take n) []).off = o + n := by
  have came : (((chunked chunks).drop o).take n).length = n := by
    rw [List.length_take, List.length_drop]
    omega
  have fits : o + (((chunked chunks).drop o).take n).length ≤ c._data.length := by
    rw [came, line.length]
    exact room
  refine ⟨by rw [Connect.filled_length _ fits, line.length], ?_, ?_⟩
  · have taken := take_store fits
    rw [came, line.taken, take_append_take_drop] at taken
    exact taken
  · show c.off + _ = _
    rw [came, line.off]

/-- The handler goes on with the size line, or has it. -/
theorem Line.handle (line : Line window o chunks body c) (good : ∀ chunk ∈ chunks, chunk.WellFormed)
    (room : o + n ≤ window) (left : o + n ≤ (chunked chunks).length) :
    Decoding (body ++ contents chunks) ((chunked chunks).drop (o + n))
      (c.filled o (((chunked chunks).drop o).take n) []).onReadBodyNoLengthHead := by
  obtain ⟨length, taken, off⟩ := line.filled room left
  generalize fill : c.filled o (((chunked chunks).drop o).take n) [] = d at length taken off
  have kept : d._response.body = body ∧ d.callbacks = [] ∧ d.reads = [] := by
    subst fill
    exact ⟨line.body, line.callbacks, rfl⟩
  obtain ⟨same, callbacks, reads⟩ := kept
  have bounds := length_sizeLine good
  have wide := line.wide
  have found : findSub CRLF (d._data.take d.off) =
      if (sizeLine chunks).length + 2 ≤ o + n then some (sizeLine chunks).length else none := by
    rw [off, taken, findSub_chunked good]
  rw [Connect.onReadBodyNoLengthHead, found]
  by_cases whole : (sizeLine chunks).length + 2 ≤ o + n
  · have digits : (d._data.take d.off).take (sizeLine chunks).length = sizeLine chunks := by
      rw [off, taken, List.take_take, Nat.min_eq_left (by omega), chunked_eq, List.take_left]
    have short : ¬ 8 < (sizeLine chunks).length := by omega
    simp only [if_pos whole, digits, hextoint32, if_neg short]
    cases chunks with
    | nil =>
      refine .ended reads ?_ ?_
      · show d.callbacks ++ [d._response.body] = _
        rw [callbacks, same, contents]
        simp
      · show d._response.body = _
        rw [same, contents]
        simp
    | cons chunk rest =>
      have wf := good chunk List.mem_cons_self
      have some := List.length_pos_of_ne_nil wf.nonempty
      have bytes : chunk.bytes.length = chunk.digits.length + 2 + chunk.content.length + 2 := Chunk.length_bytes
      have size : hexLoop 0 (sizeLine (chunk :: rest)) = chunk.content.length := wf.hexLoop
      have here : (sizeLine (chunk :: rest)).length = chunk.digits.length := rfl
      obtain ⟨fits, later⟩ := line.fits
      simp only [size]
      rw [if_neg (by omega), length, here]
      have inside : d._data.take (o + n) = (chunk.bytes ++ chunked rest).take (o + n) := by
        rw [taken, chunked_cons]
      rcases fits with less | whole'
      · have fewer : o + n ≤ chunk.bytes.length := by omega
        have grown : ((chunk.digits.length : Int) + 2 + (chunk.content.length : Nat) + 2).toNat = chunk.bytes.length := by omega
        rw [if_pos (by omega), grown]
        refine .content (o + n) chunk rest body good rfl rfl ?_
        refine ⟨length_resize, fewer, ?_, off, ?_, same, callbacks, later⟩
        · show (resize _ d._data).take _ = _
          rw [take_resize (by omega) fewer, inside, List.take_append_of_le_length fewer]
        · rw [Connect.reads_asyncRead]
          show d.reads ++ [⟨_, _, (resize _ d._data).length - d.off⟩] = _
          rw [reads, length_resize, off]
          rfl
      · rw [if_neg (by omega)]
        refine .content (o + n) chunk rest body good rfl rfl ?_
        refine ⟨by rw [← whole']; exact length, by omega, ?_, off, ?_, same, callbacks, later⟩
        · show d._data.take _ = _
          rw [inside, List.take_append_of_le_length (by omega)]
        · rw [Connect.reads_asyncRead, reads, off, length, whole']
          rfl
  · simp only [if_neg whole]
    refine .line window (o + n) chunks body good rfl rfl ?_
    refine ⟨length, wide, by omega, taken, off, ?_, same, callbacks, line.fits⟩
    rw [Connect.reads_asyncRead, reads, off, length]
    rfl

/-- The handler goes on with the chunk, or has it. -/
theorem Content.handle (content : Content o chunk chunks body c) (good : ∀ later ∈ chunk :: chunks, later.WellFormed)
    (room : o + n ≤ chunk.bytes.length) :
    Decoding (body ++ contents (chunk :: chunks)) ((chunked (chunk :: chunks)).drop (o + n))
      (c.filled o (((chunked (chunk :: chunks)).drop o).take n) []).onReadBodyNoLengthBody := by
  have wf := good chunk List.mem_cons_self
  have bytes : chunk.bytes.length = chunk.digits.length + 2 + chunk.content.length + 2 := Chunk.length_bytes
  have came : (((chunked (chunk :: chunks)).drop o).take n).length = n := by
    rw [chunked_cons, List.length_take, List.length_drop, List.length_append]
    omega
  have fits : o + (((chunked (chunk :: chunks)).drop o).take n).length ≤ c._data.length := by
    rw [came, content.length]
    exact room
  have taken := take_store fits
  have before : c._data.take o = (chunked (chunk :: chunks)).take o := by
    rw [content.taken, chunked_cons, List.take_append_of_le_length content.bound]
  rw [came, before, take_append_take_drop, chunked_cons, List.take_append_of_le_length room] at taken
  have length := (Connect.filled_length [] fits).trans content.length
  have off : (c.filled o (((chunked (chunk :: chunks)).drop o).take n) []).off = o + n := by
    show c.off + _ = _
    rw [came, content.off]
  rw [← chunked_cons] at taken
  have full : (c.filled o (((chunked (chunk :: chunks)).drop o).take n) [])._data.take (o + n) = chunk.bytes.take (o + n) := taken
  generalize fill : c.filled o (((chunked (chunk :: chunks)).drop o).take n) [] = d at length off full
  have kept : d._response.body = body ∧ d.callbacks = [] ∧ d.reads = [] := by
    subst fill
    exact ⟨content.body, content.callbacks, rfl⟩
  obtain ⟨same, callbacks, reads⟩ := kept
  rw [Connect.onReadBodyNoLengthBody, length]
  by_cases more : d.off < chunk.bytes.length
  · rw [if_pos more]
    refine .content (o + n) chunk chunks body good rfl rfl ?_
    refine ⟨length, room, full, off, ?_, same, callbacks, content.fits⟩
    rw [Connect.reads_asyncRead, reads, off, length]
    rfl
  · have last : o + n = chunk.bytes.length := by omega
    have whole : d._data.take d.off = chunk.digits ++ (CRLF ++ (chunk.content ++ CRLF)) := by
      rw [off, full, last, List.take_length, Chunk.bytes]
    have found : findSub CRLF (d._data.take d.off) = some chunk.digits.length := by
      rw [whole, findSub_append_of_not_mem (c := CR) rfl (CR_not_mem wf.hex), findSub_append_left]
      simp
    have size : (d._data.take d.off).length = chunk.bytes.length := by rw [whole, Chunk.bytes]
    have text : ((d._data.take d.off).drop (chunk.digits.length + 2)).take (chunk.bytes.length - chunk.digits.length - 4) =
        chunk.content := by
      rw [whole, ← List.drop_drop, List.drop_left]
      show (chunk.content ++ CRLF).take _ = _
      rw [show chunk.bytes.length - chunk.digits.length - 4 = chunk.content.length by omega, List.take_left]
    have enough : ¬ chunk.bytes.length < chunk.digits.length + 4 := by omega
    rw [if_neg more]
    simp only [found, size, text, if_neg enough]
    refine .line 6 0 chunks (body ++ chunk.content) (fun later mem => good later (List.mem_cons_of_mem _ mem)) ?_ ?_ ?_
    · rw [contents_cons, List.append_assoc]
    · rw [chunked_cons, last, List.drop_left]
      rfl
    · refine ⟨length_resize, Nat.le_refl _, by omega, rfl, rfl, ?_, ?_, callbacks, ?_⟩
      · rw [Connect.reads_asyncRead]
        show d.reads ++ [⟨_, _, (resize 6 d._data).length - _⟩] = _
        rw [reads, length_resize]
        rfl
      · show d._response.body ++ chunk.content = _
        rw [same]
      · cases chunks with
        | nil => trivial
        | cons next rest =>
          exact ⟨content.fits next List.mem_cons_self, fun later mem => content.fits later (List.mem_cons_of_mem _ mem)⟩

/-- The first piece of the zero chunk is a zero. -/
theorem pieces_lastChunk (e : Nat) : ∃ line more, pieces CRLF (lastChunk.take e) = line :: more ∧ line.length ≤ 4 ∧
    hexLoop 0 line = 0 := by
  match e with
  | 0 => exact ⟨[], [], rfl, by decide, by decide⟩
  | 1 => exact ⟨[48], [], rfl, by decide, by decide⟩
  | 2 => exact ⟨[48, CR], [], rfl, by decide, by decide⟩
  | 3 => exact ⟨[48], [[]], rfl, by decide, by decide⟩
  | 4 => exact ⟨[48], [[CR]], rfl, by decide, by decide⟩
  | e + 5 =>
    rw [List.take_of_length_le (by show 5 ≤ _; omega)]
    exact ⟨[48], [[], []], rfl, by decide, by decide⟩

theorem piecesLoop_zero {line : List UInt8} {more : List (List UInt8)} (four : line.length ≤ 4) (zero : hexLoop 0 line = 0) :
    Connect.piecesLoop (line :: more) c = c.callback := by
  have short : ¬ 4 < line.length := by omega
  cases more with
  | nil => rw [Connect.piecesLoop, if_neg short, if_pos zero]
  | cons content more => rw [Connect.piecesLoop, if_neg short, if_pos zero]

/-- A size line that did not come whole goes to the window. -/
theorem piecesLoop_line {line : List UInt8} (good : ∀ later ∈ chunk :: chunks, later.WellFormed)
    (early : o < chunk.digits.length + 2) (same : line = (chunked (chunk :: chunks)).take o) (four : line.length ≤ 4)
    (number : hexLoop 0 line ≠ 0) (fits : ∀ later ∈ chunk :: chunks, later.Fits 6) (reads : c.reads = [])
    (callbacks : c.callbacks = []) (before : c._response.body = body) :
    Decoding (body ++ contents (chunk :: chunks)) ((chunked (chunk :: chunks)).drop o) (Connect.piecesLoop [line] c) := by
  have enough : o ≤ (chunked (chunk :: chunks)).length := by
    have := length_chunked (chunk :: chunks)
    rw [show (sizeLine (chunk :: chunks)).length = chunk.digits.length from rfl] at this
    omega
  have length : line.length = o := by
    rw [same, List.length_take]
    omega
  have room : 0 + line.length ≤ (resize 6 c._data).length := by
    rw [length_resize]
    omega
  have short : ¬ 4 < line.length := by omega
  rw [Connect.piecesLoop, if_neg short, if_neg number]
  refine .line 6 o _ body good rfl rfl ?_
  refine ⟨(length_store room).trans length_resize, Nat.le_refl _, early, ?_, length, ?_, before, callbacks, ?_⟩
  · have taken := take_store room
    rw [Nat.zero_add, length, List.take_zero, List.nil_append] at taken
    exact taken.trans same
  · rw [Connect.reads_asyncRead]
    show c.reads ++ [⟨_, _, (store _ 0 line).length - _⟩] = _
    rw [reads, length_store room, length_resize, length]
    rfl
  · exact ⟨fits chunk List.mem_cons_self, fun later mem => fits later (List.mem_cons_of_mem _ mem)⟩

/-- A content that did not come whole goes to a buffer for the chunk. -/
theorem piecesLoop_content {k : Nat} (good : ∀ later ∈ chunk :: chunks, later.WellFormed) (less : k < chunk.content.length)
    (fits : ∀ later ∈ chunks, later.Fits 6) (reads : c.reads = []) (callbacks : c.callbacks = []) (before : c._response.body = body) :
    Decoding (body ++ contents (chunk :: chunks)) ((chunked (chunk :: chunks)).drop (chunk.digits.length + 2 + k))
      (Connect.piecesLoop [chunk.digits, chunk.content.take k] c) := by
  have wf := good chunk List.mem_cons_self
  have four := wf.four
  have bytes : chunk.bytes.length = chunk.digits.length + 2 + chunk.content.length + 2 := Chunk.length_bytes
  have length : (chunk.content.take k).length = k := by
    rw [List.length_take]
    omega
  have all : (chunk.digits ++ CRLF ++ chunk.content.take k).length = chunk.digits.length + 2 + k := by
    rw [List.length_append, List.length_append, length]
    rfl
  have room : 0 + (chunk.digits ++ CRLF ++ chunk.content.take k).length ≤
      (resize (chunk.digits.length + 2 + chunk.content.length + 2) c._data).length := by
    rw [length_resize, all]
    omega
  rw [Connect.piecesLoop, wf.hexLoop, length, if_neg (by omega), if_neg (by omega), if_neg (by omega), Int.toNat_natCast,
    Connect.piecesLoop]
  refine .content (chunk.digits.length + 2 + k) chunk chunks body good rfl rfl ?_
  refine ⟨?_, by omega, ?_, rfl, ?_, before, callbacks, fits⟩
  · exact (length_store room).trans (length_resize.trans bytes.symm)
  · have taken := take_store room
    rw [Nat.zero_add, all, List.take_zero, List.nil_append] at taken
    refine taken.trans ?_
    have line : (chunk.digits ++ CRLF).length = chunk.digits.length + 2 := by
      rw [List.length_append]
      rfl
    rw [Chunk.bytes, ← List.append_assoc, ← line, List.take_length_add_append, List.take_append_of_le_length (Nat.le_of_lt less)]
  · rw [Connect.reads_asyncRead]
    show c.reads ++ [⟨_, _, (store _ 0 _).length - _⟩] = _
    rw [reads, length_store room, length_resize, bytes]
    rfl

/-- The bytes up to the size line and so many behind it. -/
theorem take_after (chunk : Chunk) (rest : List Chunk) (k : Nat) : (chunked (chunk :: rest)).take (chunk.digits.length + 2 + k) =
    chunk.digits ++ (CRLF ++ (chunk.content ++ (CRLF ++ chunked rest)).take k) := by
  have line : (chunk.digits ++ CRLF).length = chunk.digits.length + 2 := by
    rw [List.length_append]
    rfl
  rw [chunked_eq, sizeLine, afterLine, ← List.append_assoc, ← line, List.take_length_add_append, List.append_assoc]

/-- What came with the head is taken apart, and the client goes on from there. -/
theorem piecesLoop_cuts {e : Nat} (good : ∀ chunk ∈ chunks, chunk.WellFormed) (cuts : Cuts e chunks) (reads : c.reads = [])
    (callbacks : c.callbacks = []) (before : c._response.body = body) :
    Decoding (body ++ contents chunks) ((chunked chunks).drop e) (Connect.piecesLoop (pieces CRLF ((chunked chunks).take e)) c) := by
  induction chunks generalizing e body c with
  | nil =>
    obtain ⟨line, more, same, four, zero⟩ := pieces_lastChunk e
    rw [show chunked [] = lastChunk from rfl, same, piecesLoop_zero four zero]
    refine .ended reads ?_ ?_
    · show c.callbacks ++ [c._response.body] = _
      rw [callbacks, before, contents]
      simp
    · show c._response.body = _
      rw [before, contents]
      simp
  | cons chunk rest ih =>
    have wf := good chunk List.mem_cons_self
    have some := List.length_pos_of_ne_nil wf.nonempty
    have four := wf.four
    have bytes : chunk.bytes.length = chunk.digits.length + 2 + chunk.content.length + 2 := Chunk.length_bytes
    have line := findSub_chunked good e
    rw [show (sizeLine (chunk :: rest)).length = chunk.digits.length from rfl] at line
    rw [Cuts] at cuts
    split_ifs at cuts with early short inside
    · -- The bytes end in the digits.
      obtain ⟨fits, number⟩ := cuts
      have same : (chunked (chunk :: rest)).take e = chunk.digits.take e := by
        rw [chunked_cons, Chunk.bytes, List.append_assoc, List.take_append_of_le_length short]
      rw [if_neg (by omega)] at line
      rw [pieces_eq_singleton line]
      refine piecesLoop_line good early rfl ?_ ?_ fits reads callbacks before
      · rw [same, List.length_take]
        omega
      · have hex : ∀ c ∈ chunk.digits.take e, (hexDigit c).isSome := fun c mem => wf.hex c (List.mem_of_mem_take mem)
        have loop := (hexLoop_digits hex (by rw [List.length_take]; omega) []).1
        rw [List.append_nil] at loop
        rw [same, loop, hexLoop]
        exact Int.natCast_ne_zero.2 number
    · -- They end behind the carriage return of the size line.
      obtain ⟨fits, three⟩ := cuts
      have same : (chunked (chunk :: rest)).take e = chunk.digits ++ [CR] := by
        rw [chunked_cons, Chunk.bytes, List.append_assoc, show e = chunk.digits.length + 1 by omega, List.take_length_add_append]
        rfl
      rw [if_neg (by omega)] at line
      rw [pieces_eq_singleton line]
      refine piecesLoop_line good early rfl ?_ ?_ fits reads callbacks before
      · rw [same, List.length_append, List.length_singleton]
        omega
      · obtain ⟨loop, small⟩ := hexLoop_digits wf.hex four [CR]
        have size := wf.size
        have shifted : toInt32 ((hexNumber chunk.digits : Int) * 16) = hexNumber chunk.digits * 16 := by
          rw [toInt32_eq] <;> omega
        rw [same, loop, hexLoop, show hexDigit CR = none from rfl]
        show toInt32 _ ≠ 0
        rw [shifted]
        omega
    · -- They end in the content.
      obtain ⟨fits, none⟩ := cuts
      have same : (chunked (chunk :: rest)).take e =
          chunk.digits ++ (CRLF ++ chunk.content.take (e - (chunk.digits.length + 2))) := by
        have cut := take_after chunk rest (e - (chunk.digits.length + 2))
        rw [show chunk.digits.length + 2 + (e - (chunk.digits.length + 2)) = e by omega] at cut
        rw [cut, List.take_append_of_le_length (by omega)]
      rw [same, pieces_append (c := CR) rfl (CR_not_mem wf.hex), pieces_eq_singleton none]
      have after := piecesLoop_content (k := e - (chunk.digits.length + 2)) good (by omega) fits reads callbacks before
      rw [show chunk.digits.length + 2 + (e - (chunk.digits.length + 2)) = e by omega] at after
      exact after
    · -- The chunk is there, and what comes after it.
      obtain ⟨whole, none, cuts⟩ := cuts
      have same : (chunked (chunk :: rest)).take e =
          chunk.digits ++ (CRLF ++ (chunk.content ++ (CRLF ++ (chunked rest).take (e - chunk.bytes.length)))) := by
        have cut := take_after chunk rest (chunk.content.length + 2 + (e - chunk.bytes.length))
        rw [show chunk.digits.length + 2 + (chunk.content.length + 2 + (e - chunk.bytes.length)) = e by omega] at cut
        have two : (CRLF ++ chunked rest).take (CRLF.length + (e - chunk.bytes.length)) =
            CRLF ++ (chunked rest).take (e - chunk.bytes.length) := List.take_length_add_append _
        change (CRLF ++ chunked rest).take (2 + _) = _ at two
        rw [cut, Nat.add_assoc, List.take_length_add_append, two]
      rw [same, pieces_append (c := CR) rfl (CR_not_mem wf.hex), pieces_content none]
      rw [Connect.piecesLoop, wf.hexLoop, if_neg (by omega), if_neg (by omega), if_pos (by omega)]
      have after := @ih (body ++ chunk.content)
        { c with _response := { c._response with body := c._response.body ++ chunk.content } } (e - chunk.bytes.length)
        (fun later mem => good later (List.mem_cons_of_mem _ mem)) cuts reads callbacks (congrArg (· ++ chunk.content) before)
      rw [contents_cons, ← List.append_assoc]
      have tail : (chunked (chunk :: rest)).drop e = (chunked rest).drop (e - chunk.bytes.length) := by
        rw [chunked_cons, List.drop_append, List.drop_eq_nil_of_le whole, List.nil_append]
      rw [tail]
      exact after

end Steps

/-- The head has no length. -/
def Head.NoLength (head : Head) : Prop :=
  ∀ field ∈ head.fields, field.1 ≠ Connect.contentLength ∧ field.1 ≠ Connect.contentLengthBlank

/-- The head comes into the buffer and its status line has three parts, and the client can go on from where the read that
completes the head ends. -/
structure Decodable (head : Head) (chunks : List Chunk) (ns : List Nat) : Prop where
  fits : head.size ≤ 1000
  parts : head.Parts
  starts : ∀ b ∈ (boundaries 0 ns).find? (head.size ≤ ·), Starts (max (1000 - head.size) 6) (b - head.size) chunks

section Runs

variable {head : Head} {chunks : List Chunk} {m n : Nat} {c d e : Connect} {total rest : List UInt8}

theorem getLength_none (received : Received head (chunked chunks) m c) (plain : head.NoLength) : c.getLength = -1 := by
  have absent : ∀ name, (∀ field ∈ head.fields, field.1 ≠ name) → c._response.head.lookup name = none := by
    intro name other
    rw [received.fields, List.lookup_eq_none_iff]
    intro field mem
    rw [bne_iff_ne]
    exact (other field (List.mem_reverse.1 mem)).symm
  rw [Connect.getLength, absent _ fun field mem => (plain field mem).1, absent _ fun field mem => (plain field mem).2]

/-- After the head the client is in a size line or in a chunk. -/
theorem Received.decoding (received : Received head (chunked chunks) m e) (plain : head.NoLength)
    (good : ∀ chunk ∈ chunks, chunk.WellFormed) (head_of : d.isReceiveHead = (true, e))
    (starts : Starts (max (1000 - head.size) 6) (m - head.size) chunks) :
    Decoding (contents chunks) ((chunked chunks).drop (m - head.size)) d.onReadHead := by
  have whole := received.whole
  have bound := received.bound
  have length := received.length
  rw [Connect.onReadHead, head_of]
  simp only [getLength_none received plain, ne_eq, not_true_eq_false, if_false]
  rw [received.off, received.head_off, received.taken, findSub_chunked good]
  by_cases line : (sizeLine chunks).length + 2 ≤ m - head.size
  · have nonempty : (chunked chunks).take (m - head.size) ≠ [] := by
      intro none
      have := congrArg List.length none
      have := length_chunked chunks
      rw [List.length_take, List.length_nil] at *
      omega
    have cuts : Cuts (m - head.size) chunks := by
      cases chunks with
      | nil => trivial
      | cons chunk rest =>
        rw [Starts, if_neg (by show ¬ _ < (sizeLine (chunk :: rest)).length + 2; omega)] at starts
        exact starts
    rw [if_pos line, splitHasEmpty, if_neg nonempty]
    exact piecesLoop_cuts good cuts received.reads received.callbacks received.empty
  · have enough := length_chunked chunks
    have same : ((chunked chunks).take (m - head.size)).length = m - head.size := by
      rw [List.length_take]
      omega
    rw [if_neg line, same]
    refine .line (max (1000 - head.size) 6) (m - head.size) chunks [] good rfl rfl ?_
    refine ⟨length, Nat.le_max_right _ _, by omega, received.taken, rfl, ?_, received.empty, received.callbacks, ?_⟩
    · rw [Connect.reads_asyncRead]
      show e.reads ++ [⟨_, _, e._data.length - _⟩] = _
      rw [received.reads, length]
      rfl
    · cases chunks with
      | nil => trivial
      | cons chunk rest =>
        rw [Starts, if_pos (by show _ < (sizeLine (chunk :: rest)).length + 2; omega)] at starts
        exact starts

/-- Outstanding reads of length zero. -/
def idle (c : Connect) : Nat := c.reads.countP fun read => read.size = 0

theorem Decoding.idle_le (decoding : Decoding total rest c) : idle c ≤ 1 := by
  cases decoding with
  | line _ _ _ _ _ _ _ line =>
    rw [idle, line.reads]
    exact List.countP_le_length
  | content _ _ _ _ _ _ _ content =>
    rw [idle, content.reads]
    exact List.countP_le_length
  | ended reads =>
    rw [idle, reads]
    exact Nat.zero_le 1

/-- The window has always room. -/
theorem Decoding.idle_eq_zero (decoding : Decoding total rest c)
    (handlers : ∀ read ∈ c.reads, read.handler ≠ .on_read_body_no_length_body) : idle c = 0 := by
  cases decoding with
  | line window o chunks body good sum left line =>
    have early := line.early
    have wide := line.wide
    have bounds := length_sizeLine good
    rw [idle, line.reads, List.countP_eq_zero]
    intro read mem
    obtain rfl := List.mem_singleton.1 mem
    simp only [decide_eq_true_eq]
    omega
  | content o chunk chunks body good sum left content =>
    rw [content.reads] at handlers
    exact absurd rfl (handlers _ (List.mem_singleton_self _))
  | ended reads => rw [idle, reads]; rfl

/-- A chunk that is there is followed by a read for the next size line. -/
theorem onReadBodyNoLengthBody_full (none : c.reads = []) (full : ¬ c.off < c._data.length) :
    ∀ read ∈ c.onReadBodyNoLengthBody.reads, read.handler ≠ .on_read_body_no_length_body := by
  intro read mem
  rw [Connect.onReadBodyNoLengthBody, if_neg full] at mem
  cases found : findSub CRLF (c._data.take c.off) with
  | none =>
    simp only [found, Connect.reads_asyncRead, none] at mem
    obtain rfl := List.mem_singleton.1 mem
    exact Handler.noConfusion
  | some pos =>
    simp only [found, Connect.reads_asyncRead, none] at mem
    obtain rfl := List.mem_singleton.1 mem
    exact Handler.noConfusion

/-- One read: the client decodes on, and it does not read nothing for ever. -/
theorem Decoding.step {t : Transport} (decoding : Decoding total rest c) (next : step ⟨c, rest⟩ n = some t) :
    Decoding total t.rest t.connect ∧ t.rest = rest.drop n ∧ n ≤ rest.length ∧
      1 + (2 * t.rest.length + idle t.connect) ≤ 2 * rest.length + idle c := by
  cases decoding with
  | line window o chunks body good sum left line =>
    obtain ⟨room, most, some, rfl⟩ := step_single line.reads next
    change n ≤ rest.length at most
    have early := line.early
    have wide := line.wide
    have bounds := length_sizeLine good
    have enough := length_chunked chunks
    have length : rest.length = (chunked chunks).length - o := by rw [left, List.length_drop]
    have after := line.handle (n := n) good (by omega) (by omega)
    rw [sum, ← List.drop_drop, ← left] at after
    have pos : n ≠ 0 := fun none => by
      have := some none
      omega
    have bound := after.idle_le
    refine ⟨after, rfl, most, ?_⟩
    show 1 + (2 * (rest.drop n).length + idle (c.filled o (rest.take n) []).onReadBodyNoLengthHead) ≤ _
    rw [List.length_drop]
    omega
  | content o chunk chunks body good sum left content =>
    obtain ⟨room, most, some, rfl⟩ := step_single content.reads next
    change n ≤ rest.length at most
    have bound := content.bound
    have after := content.handle (n := n) good (by omega)
    rw [sum, ← List.drop_drop, ← left] at after
    refine ⟨after, rfl, most, ?_⟩
    show 1 + (2 * (rest.drop n).length + idle (c.filled o (rest.take n) []).onReadBodyNoLengthBody) ≤ _
    rw [List.length_drop]
    by_cases none : n = 0
    · have zero := some none
      have before : idle c = 1 := by
        rw [idle, content.reads, zero]
        rfl
      have full : ¬ (c.filled o (rest.take n) []).off < (c.filled o (rest.take n) [])._data.length := by
        rw [Connect.filled_length _ (by rw [none, List.take_zero, content.length]; exact bound), content.length]
        show ¬ c.off + _ < _
        rw [content.off]
        omega
      have now := after.idle_eq_zero (onReadBodyNoLengthBody_full rfl full)
      omega
    · have bound := after.idle_le
      omega
  | ended reads =>
    rw [Http.step, reads] at next
    cases next

/-- Something is still to come, or the client has called back. -/
theorem Decoding.stuck (decoding : Decoding total rest c) (ended : ∀ n u, Http.step ⟨c, rest⟩ n ≠ some u) :
    c.callbacks = [total] ∧ c._response.body = total := by
  have goes : ∀ n handler place size, c.reads = [⟨handler, place, size⟩] → n ≤ size → n ≤ rest.length → (n = 0 → size = 0) →
      False := by
    intro n handler place size reads room left some
    apply ended n ⟨(c.filled place (rest.take n) []).handle handler, rest.drop n⟩
    rw [Http.step]
    simp only [reads]
    rw [if_pos ⟨room, left, some⟩, Connect.filled, List.length_take, Nat.min_eq_left left]
  cases decoding with
  | line window o chunks body good sum left line =>
    have early := line.early
    have wide := line.wide
    have bounds := length_sizeLine good
    have enough := length_chunked chunks
    have length : rest.length = (chunked chunks).length - o := by rw [left, List.length_drop]
    exact (goes 1 _ _ _ line.reads (by omega) (by omega) (by omega)).elim
  | content o chunk chunks body good sum left content =>
    have bound := content.bound
    have length : rest.length = chunk.bytes.length + (chunked chunks).length - o := by
      rw [left, List.length_drop, chunked_cons, List.length_append]
    by_cases full : o = chunk.bytes.length
    · exact (goes 0 _ _ _ content.reads (by omega) (by omega) fun _ => by omega).elim
    · exact (goes 1 _ _ _ content.reads (by omega) (by omega) (by omega)).elim
  | ended _ callbacks body => exact ⟨callbacks, body⟩

/-- Where the client is after reads of these sizes. -/
structure Decoded (head : Head) (chunks : List Chunk) (ns : List Nat) (t : Transport) : Prop where
  rest : t.rest = (head.bytes ++ chunked chunks).drop ns.sum
  left : ns.sum ≤ (head.bytes ++ chunked chunks).length
  phase : Reading head (chunked chunks) ns.sum t.connect ∨
    (head.size ≤ ns.sum ∧ Decoding (contents chunks) t.rest t.connect)
  bounded : ns.length + (2 * t.rest.length + idle t.connect) ≤ 2 * (head.bytes ++ chunked chunks).length

theorem find?_boundaries_of_lt {k : Nat} {ns : List Nat} (early : ns.sum < k) : (boundaries 0 ns).find? (k ≤ ·) = none := by
  rw [List.find?_eq_none]
  intro b mem le
  have := le_of_mem_boundaries mem
  simp only [decide_eq_true_eq] at le
  omega

theorem Decodable.of_append {ns : List Nat} (decodable : Decodable head chunks (ns ++ [n])) : Decodable head chunks ns := by
  refine ⟨decodable.fits, decodable.parts, fun b found => decodable.starts b ?_⟩
  rw [boundaries_append, List.find?_append, found]
  rfl

theorem Reading.idle_eq_zero {body : List UInt8} (reading : Reading head body m c) (early : m < 1000) : idle c = 0 := by
  rw [idle, reading.reads, List.countP_eq_zero]
  intro read mem
  obtain rfl := List.mem_singleton.1 mem
  simp only [decide_eq_true_eq]
  omega

theorem Decoded.step {ns : List Nat} {s t : Transport} (decoded : Decoded head chunks ns s) (wf : head.WellFormed)
    (plain : head.NoLength) (good : ∀ chunk ∈ chunks, chunk.WellFormed) (decodable : Decodable head chunks (ns ++ [n]))
    (next : Http.step s n = some t) : Decoded head chunks (ns ++ [n]) t := by
  obtain ⟨rest, left, phase, bounded⟩ := decoded
  have total : (head.bytes ++ chunked chunks).length = head.size + (chunked chunks).length := List.length_append
  have sum : (ns ++ [n]).sum = ns.sum + n := by simp
  have count : (ns ++ [n]).length = ns.length + 1 := by simp
  have fits := decodable.fits
  rcases phase with reading | ⟨whole, decoding⟩
  · obtain ⟨room, most, some, rfl⟩ := step_single reading.reads next
    have fewer : ns.sum < head.size := reading.early.resolve_right (not_not_intro decodable.parts)
    have bound := reading.bound
    have pos : n ≠ 0 := fun none => by
      have := some none
      omega
    change n ≤ s.rest.length at most
    have length : s.rest.length = (head.bytes ++ chunked chunks).length - ns.sum := by rw [rest, List.length_drop]
    have shorter : (s.rest.drop n).length = s.rest.length - n := List.length_drop
    have before := reading.idle_eq_zero (by omega)
    by_cases early : ns.sum + n < head.size
    · have after := reading.early_read wf (n := n) (by omega) (by omega) (.inl early)
      rw [← rest] at after
      have now := after.idle_eq_zero (by omega)
      refine ⟨by rw [sum, ← List.drop_drop, ← rest], by omega, .inl (by rw [sum]; exact after), ?_⟩
      show (ns ++ [n]).length + (2 * (s.rest.drop n).length + idle (s.connect.filled ns.sum (s.rest.take n) []).onReadHead) ≤ _
      omega
    · obtain ⟨e, head_of, received⟩ := reading.last_read wf (n := n) (by omega) (by omega) (by omega) decodable.parts
      have starts := decodable.starts (ns.sum + n) ?_
      · have after := received.decoding plain good head_of starts
        have tail : (chunked chunks).drop (ns.sum + n - head.size) = s.rest.drop n := by
          have gone : head.bytes.drop (ns.sum + n) = [] := List.drop_eq_nil_of_le (by show head.size ≤ _; omega)
          rw [rest, List.drop_drop, List.drop_append, gone, List.nil_append]
          rfl
        rw [tail, ← rest] at after
        have now := after.idle_le
        refine ⟨by rw [sum, ← List.drop_drop, ← rest], by omega, .inr ⟨by omega, after⟩, ?_⟩
        show (ns ++ [n]).length + (2 * (s.rest.drop n).length + idle (s.connect.filled ns.sum (s.rest.take n) []).onReadHead) ≤ _
        omega
      · rw [boundaries_append, List.find?_append, find?_boundaries_of_lt fewer, Nat.zero_add]
        simp only [Option.none_or, List.find?_singleton]
        rw [if_pos (by simp only [decide_eq_true_eq]; omega)]
        rfl
  · obtain ⟨after, tail, most, less⟩ := decoding.step next
    have length := most
    rw [rest, List.length_drop] at length
    refine ⟨by rw [tail, sum, ← List.drop_drop, ← rest], by omega, .inr ⟨by omega, after⟩, by omega⟩

theorem Decoded.of_runs {ns : List Nat} {t : Transport} (wf : head.WellFormed) (plain : head.NoLength)
    (good : ∀ chunk ∈ chunks, chunk.WellFormed)
    (run : Runs Http.step (fun _ _ => True) (.init (head.bytes ++ chunked chunks)) ns t) (decodable : Decodable head chunks ns) :
    Decoded head chunks ns t := by
  induction run with
  | refl =>
    have reading : Reading head (chunked chunks) 0 .init := Reading.init
    refine ⟨rfl, Nat.zero_le _, .inl reading, ?_⟩
    show 0 + (2 * (head.bytes ++ chunked chunks).length + idle Connect.init) ≤ _
    rw [reading.idle_eq_zero (by decide)]
    omega
  | snoc _ _ next ih => exact (ih decodable.of_append).step wf plain good decodable next

/-- **A chunked response is decoded**, with one call of `_callback`, after a bounded number of reads, if the client can go on
from where the read that completes the head ends. -/
theorem chunks_served {ns : List Nat} {t : Transport} (wf : head.WellFormed) (plain : head.NoLength)
    (good : ∀ chunk ∈ chunks, chunk.WellFormed)
    (run : Runs Http.step (fun _ _ => True) (.init (head.bytes ++ chunked chunks)) ns t) (decodable : Decodable head chunks ns) :
    ns.length ≤ 2 * (head.bytes ++ chunked chunks).length ∧
    ((∀ n u, Http.step t n ≠ some u) → t.connect.callbacks = [contents chunks] ∧ t.connect._response.body = contents chunks) := by
  obtain ⟨rest, left, phase, bounded⟩ := Decoded.of_runs wf plain good run decodable
  refine ⟨by omega, fun ended => ?_⟩
  rcases phase with reading | ⟨-, decoding⟩
  · have fewer : ns.sum < head.size := reading.early.resolve_right (not_not_intro decodable.parts)
    have fits := decodable.fits
    have more : t.rest ≠ [] := by
      intro none
      rw [rest, List.drop_eq_nil_iff, List.length_append] at none
      change head.size + _ ≤ _ at none
      omega
    exact absurd (fun n u _ => ended n u) (not_over reading.reads (by omega) more)
  · exact decoding.stuck ended

end Runs

/-- "a b c", without fields. -/
def shortHead : Head := ⟨[97, 32, 98, 32, 99], []⟩

theorem shortHead_wellFormed : shortHead.WellFormed := ⟨by decide, by decide, nofun, nofun⟩

/-- "a" and "b". -/
def twoChunks : List Chunk := [⟨[49], [97]⟩, ⟨[49], [98]⟩]

theorem twoChunks_wellFormed : ∀ chunk ∈ twoChunks, chunk.WellFormed := by
  intro chunk mem
  rcases List.mem_cons.1 mem with rfl | mem
  · exact ⟨by decide, by decide, List.forall_mem_singleton.2 (by decide), by decide, by decide⟩
  · obtain rfl := List.mem_singleton.1 mem
    exact ⟨by decide, by decide, List.forall_mem_singleton.2 (by decide), by decide, by decide⟩

theorem stuck_of_reads {t : Transport} (none : t.connect.reads = []) : ∀ n u, step t n ≠ some u := by
  intro n u next
  rw [step, none] at next
  cases next

/-- The first read ends in the second size line. -/
theorem chunks_served_two : ∃ t, Runs step (fun _ _ => True) (.init (shortHead.bytes ++ chunked twoChunks)) [16, 5, 0, 3] t ∧
    (∀ n u, step t n ≠ some u) ∧ Decodable shortHead twoChunks [16, 5, 0, 3] ∧
    t.connect.callbacks = [[97, 98]] ∧ t.connect._response.body = [97, 98] := by
  have reached : ∃ t, Runs step (fun _ _ => True) (.init (shortHead.bytes ++ chunked twoChunks)) [16, 5, 0, 3] t ∧
      t.connect.reads = [] := by
    apply Runs.exists_of_decide
    decide +kernel
  obtain ⟨t, run, none⟩ := reached
  have decodable : Decodable shortHead twoChunks [16, 5, 0, 3] := by
    refine ⟨by decide, by decide, fun b found => ?_⟩
    obtain rfl : 16 = b := Option.some.inj found
    show Cuts 7 twoChunks
    refine ⟨by decide, by decide, ?_⟩
    show Cuts 1 [⟨[49], [98]⟩]
    exact ⟨by decide, by decide⟩
  exact ⟨t, run, stuck_of_reads none, decodable,
    (chunks_served shortHead_wellFormed nofun twoChunks_wellFormed run decodable).2 (stuck_of_reads none)⟩

/-- The first read ends behind the first chunk. -/
theorem chunks_cut_off : shortHead.WellFormed ∧ shortHead.NoLength ∧ (∀ chunk ∈ twoChunks, chunk.WellFormed) ∧
    ∃ t, Runs step (fun _ _ => True) (.init (shortHead.bytes ++ chunked twoChunks)) [15] t ∧
      (∀ n u, step t n ≠ some u) ∧ t.connect.callbacks = [[97]] ∧ t.connect._response.body = [97] ∧ contents twoChunks = [97, 98] := by
  have reached : ∃ t, Runs step (fun _ _ => True) (.init (shortHead.bytes ++ chunked twoChunks)) [15] t ∧
      t.connect.reads = [] ∧ t.connect.callbacks = [[97]] ∧ t.connect._response.body = [97] := by
    apply Runs.exists_of_decide
    decide +kernel
  obtain ⟨t, run, none, callbacks, body⟩ := reached
  exact ⟨shortHead_wellFormed, nofun, twoChunks_wellFormed, t, run, stuck_of_reads none, callbacks, body, by decide⟩

end GameServer.Http

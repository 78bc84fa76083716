import GameServer.Http.Connect

/-!
# The head of a response

A head is a status line and fields, each on a line, and an empty line. While it is not complete the
client goes on reading (`Reading`); a plain socket never gets more than 1000 bytes for it. With the
read that completes it the head is taken out of `_data` (`Received`), if the status line has three
parts.
-/

namespace GameServer.Http

open GameServer.Lib

section Buffers

variable {data bytes : List UInt8} {place n : Nat}

theorem length_resize : (resize n data).length = n := by
  rw [resize, List.length_append, List.length_take, List.length_replicate]
  omega

theorem take_resize (le : n ≤ data.length) {m : Nat} (small : n ≤ m) : (resize m data).take n = data.take n := by
  rw [resize, List.take_append_of_le_length (by rw [List.length_take]; omega), List.take_take, Nat.min_eq_left small]

theorem length_padded : (padded data).length = max data.length 6 := by
  unfold padded
  split
  · rw [length_resize]
    omega
  · omega

theorem take_padded (le : n ≤ data.length) : (padded data).take n = data.take n := by
  unfold padded
  split
  · exact take_resize le (by omega)
  · rfl

theorem length_store (fits : place + bytes.length ≤ data.length) : (store data place bytes).length = data.length := by
  rw [store, List.length_append, List.length_append, List.length_take, List.length_drop]
  omega

theorem take_store (fits : place + bytes.length ≤ data.length) :
    (store data place bytes).take (place + bytes.length) = data.take place ++ bytes := by
  have length : (data.take place ++ bytes).length = place + bytes.length := by
    rw [List.length_append, List.length_take]
    omega
  rw [store, ← length, List.take_left]

/-- The bytes of the response that came so far, and those that come next. -/
theorem take_append_take_drop (s : List UInt8) (m n : Nat) : s.take m ++ (s.drop m).take n = s.take (m + n) :=
  (List.take_add ..).symm

end Buffers

structure Head where
  status : List UInt8
  fields : List (List UInt8 × List UInt8)
  deriving DecidableEq, Repr

namespace Head

def fieldLine (field : List UInt8 × List UInt8) : List UInt8 := field.1 ++ 58 :: field.2

def lines (head : Head) : List (List UInt8) := head.status :: head.fields.map fieldLine

def text (head : Head) : List UInt8 := CRLF.intercalate head.lines

def bytes (head : Head) : List UInt8 := head.text ++ (CRLF ++ CRLF)

def size (head : Head) : Nat := head.bytes.length

/-- No line has a carriage return, and no name a colon. -/
structure WellFormed (head : Head) : Prop where
  nonempty : head.status ≠ []
  status : CR ∉ head.status
  names : ∀ field ∈ head.fields, (58 : UInt8) ∉ field.1
  fields : ∀ field ∈ head.fields, CR ∉ field.1 ∧ CR ∉ field.2

/-- The status line has a version, a code and a reason. -/
def Parts (head : Head) : Prop := 3 ≤ (split [32] head.status).length

instance (head : Head) : Decidable head.Parts := inferInstanceAs (Decidable (_ ≤ _))

section Lines

variable {ls : List (List UInt8)} {l tail : List UInt8} {head : Head}

theorem size_eq : head.size = head.text.length + 4 := by
  rw [size, bytes, List.length_append]
  rfl

theorem WellFormed.lines (wf : head.WellFormed) : ∀ l ∈ head.lines, l ≠ [] ∧ CR ∉ l := by
  intro l mem
  rcases List.mem_cons.1 mem with rfl | mem
  · exact ⟨wf.nonempty, wf.status⟩
  · obtain ⟨field, listed, rfl⟩ := List.mem_map.1 mem
    obtain ⟨name, value⟩ := wf.fields field listed
    refine ⟨by simp [fieldLine], ?_⟩
    rw [fieldLine, List.mem_append, List.mem_cons]
    rintro (there | same | there)
    · exact name there
    · cases same
    · exact value there

theorem findSub_line (free : CR ∉ l) (t : List UInt8) :
    findSub (CRLF ++ CRLF) (l ++ t) = (findSub (CRLF ++ CRLF) t).map (· + l.length) :=
  findSub_append_of_not_mem (c := CR) rfl free

/-- The first empty line is the one after the lines. -/
theorem findSub_intercalate (good : ∀ l' ∈ l :: ls, l' ≠ [] ∧ CR ∉ l') :
    findSub (CRLF ++ CRLF) (CRLF.intercalate (l :: ls) ++ (CRLF ++ CRLF ++ tail)) = some (CRLF.intercalate (l :: ls)).length := by
  induction ls generalizing l with
  | nil =>
    rw [List.intercalate_singleton, findSub_line (good l List.mem_cons_self).2, findSub_append_left]
    simp
  | cons l' ls ih =>
    obtain ⟨some, free⟩ := good l' (List.mem_cons_of_mem _ List.mem_cons_self)
    rw [List.intercalate_cons_cons, List.append_assoc, List.append_assoc, findSub_line (good l List.mem_cons_self).2]
    have rest := ih fun x mem => good x (List.mem_cons_of_mem _ mem)
    -- Between two lines there is no empty one: the next line does not begin with a carriage return.
    have skip : ∀ j, j < 2 → ¬ CRLF ++ CRLF <+: (CRLF ++ (CRLF.intercalate (l' :: ls) ++ (CRLF ++ CRLF ++ tail))).drop j := by
      obtain ⟨d, ds, rfl⟩ := List.exists_cons_of_ne_nil some
      obtain ⟨more, same⟩ : ∃ more, CRLF.intercalate ((d :: ds) :: ls) = d :: more := by
        cases ls with
        | nil => exact ⟨ds, List.intercalate_singleton⟩
        | cons l'' ls => exact ⟨_, List.intercalate_cons_cons⟩
      rw [same]
      intro j less here
      have first : d ≠ CR := fun same => free (by rw [same]; exact List.mem_cons_self)
      match j, less with
      | 0, _ => exact first (List.cons_prefix_cons.1 (List.cons_prefix_cons.1 (List.cons_prefix_cons.1 here).2).2).1.symm
      | 1, _ => exact absurd (List.cons_prefix_cons.1 here).1 (by decide)
    rw [findSub_skip (by simp [CRLF]) skip]
    show Option.map _ (Option.map _ (findSub _ (CRLF.intercalate (l' :: ls) ++ (CRLF ++ CRLF ++ tail)))) = _
    rw [rest, Option.map_some, Option.map_some]
    simp [CRLF]
    omega

theorem pieces_intercalate (good : ∀ l' ∈ l :: ls, CR ∉ l') : pieces CRLF (CRLF.intercalate (l :: ls)) = l :: ls := by
  induction ls generalizing l with
  | nil => rw [List.intercalate_singleton, pieces_of_not_mem (c := CR) rfl (good l List.mem_cons_self)]
  | cons l' ls ih =>
    rw [List.intercalate_cons_cons, List.append_assoc, pieces_append (c := CR) rfl (good l List.mem_cons_self),
      ih fun x mem => good x (List.mem_cons_of_mem _ mem)]

theorem WellFormed.findSub_bytes (wf : head.WellFormed) (body : List UInt8) :
    findSub (CRLF ++ CRLF) (head.bytes ++ body) = some head.text.length := by
  rw [bytes, List.append_assoc]
  exact findSub_intercalate wf.lines

theorem WellFormed.split_text (wf : head.WellFormed) : split CRLF head.text = head.lines := by
  have all : pieces CRLF head.text = head.lines := pieces_intercalate fun l mem => (wf.lines l mem).2
  have more : head.text ≠ [] := by
    intro none
    rw [none, pieces_eq_singleton rfl] at all
    exact wf.nonempty (List.head_eq_of_cons_eq all).symm
  rw [split, splitHasEmpty, if_neg more, all]
  exact List.filter_eq_self.2 fun l mem => decide_eq_true (wf.lines l mem).1

theorem addHead_fieldLine {field : List UInt8 × List UInt8} (name : (58 : UInt8) ∉ field.1)
    (heads : List (List UInt8 × List UInt8)) : Connect.addHead heads (fieldLine field) = field :: heads := by
  have here : findSub [58] ([58] ++ field.2) = some 0 := findSub_append_left
  have found : findSub [58] (fieldLine field) = some field.1.length := by
    rw [fieldLine, findSub_append_of_not_mem (c := 58) rfl name, show (58 : UInt8) :: field.2 = [58] ++ field.2 from rfl, here]
    simp
  rw [Connect.addHead, found]
  simp [fieldLine]

theorem WellFormed.foldl_addHead (wf : head.WellFormed) :
    (head.fields.map fieldLine).foldl Connect.addHead [] = head.fields.reverse := by
  have all : ∀ (fields heads : List (List UInt8 × List UInt8)), (∀ field ∈ fields, (58 : UInt8) ∉ field.1) →
      (fields.map fieldLine).foldl Connect.addHead heads = fields.reverse ++ heads := by
    intro fields
    induction fields with
    | nil => exact fun heads _ => rfl
    | cons field fields ih =>
      intro heads names
      rw [List.map_cons, List.foldl_cons, addHead_fieldLine (names field List.mem_cons_self),
        ih _ fun f mem => names f (List.mem_cons_of_mem _ mem), List.reverse_cons, List.append_assoc]
      rfl
  rw [all _ _ wf.names, List.append_nil]

end Lines

end Head

/-- `m` bytes of the response came, and the head was not seen in them. -/
structure Reading (head : Head) (body : List UInt8) (m : Nat) (c : Connect) : Prop where
  length : c._data.length = 1000
  bound : m ≤ 1000
  taken : c._data.take m = (head.bytes ++ body).take m
  off : c.off = m
  ready : c.head_ready = false
  early : m < head.size ∨ ¬ head.Parts
  reads : c.reads = [⟨.on_read_head, m, 1000 - m⟩]
  callbacks : c.callbacks = []
  failed : c.failed = false
  issued : m < 1000 → 0 ∉ c.issued

/-- `m` bytes came with the head among them, which was taken out of `_data`. -/
structure Received (head : Head) (body : List UInt8) (m : Nat) (c : Connect) : Prop where
  length : c._data.length = max (1000 - head.size) 6
  bound : m ≤ 1000
  whole : head.size ≤ m
  taken : c._data.take (m - head.size) = body.take (m - head.size)
  off : c.off = m
  head_off : c.head_off = head.size
  ready : c.head_ready = true
  fields : c._response.head = head.fields.reverse
  empty : c._response.body = []
  reads : c.reads = []
  callbacks : c.callbacks = []
  failed : c.failed = false
  issued : 0 ∉ c.issued

section Reads

variable {head : Head} {body : List UInt8} {m n : Nat} {c : Connect}

theorem Connect.length_start : Connect.start._data.length = 1000 := List.length_replicate

theorem Connect.reads_asyncRead (handler : Handler) (place : Nat) :
    (c.asyncRead handler place).reads = c.reads ++ [⟨handler, place, c._data.length - place⟩] := rfl

theorem Connect.issued_asyncRead (handler : Handler) (place : Nat) :
    (c.asyncRead handler place).issued = c.issued ++ [c._data.length - place] := rfl

theorem Reading.init : Reading head body 0 .init where
  length := Connect.length_start
  bound := Nat.zero_le _
  taken := rfl
  off := rfl
  ready := rfl
  early := .inl (by rw [Head.size_eq]; omega)
  reads := by
    rw [Connect.init, Connect.reads_asyncRead, Connect.length_start]
    rfl
  callbacks := rfl
  failed := rfl
  issued _ := by
    rw [Connect.init, Connect.issued_asyncRead, Connect.length_start]
    exact fun mem => by cases List.mem_singleton.1 mem

/-- The state in which the handler of a read runs. -/
def Connect.filled (c : Connect) (place : Nat) (bytes : List UInt8) (reads : List Read) : Connect :=
  { c with _data := store c._data place bytes, off := c.off + bytes.length, reads := reads }

theorem Connect.filled_length {bytes : List UInt8} (reads : List Read) (fits : m + bytes.length ≤ c._data.length) :
    (c.filled m bytes reads)._data.length = c._data.length := length_store fits

/-- The bytes that came are the first of the response. -/
theorem Reading.filled (reading : Reading head body m c) (room : m + n ≤ 1000) (left : m + n ≤ (head.bytes ++ body).length) :
    (c.filled m (((head.bytes ++ body).drop m).take n) [])._data.length = 1000 ∧
    (c.filled m (((head.bytes ++ body).drop m).take n) [])._data.take (m + n) = (head.bytes ++ body).take (m + n) ∧
    (c.filled m (((head.bytes ++ body).drop m).take n) []).off = m + n := by
  have length : (((head.bytes ++ body).drop m).take n).length = n := by
    rw [List.length_take, List.length_drop]
    omega
  have fits : m + (((head.bytes ++ body).drop m).take n).length ≤ c._data.length := by
    rw [length, reading.length]
    exact room
  refine ⟨?_, ?_, ?_⟩
  · rw [Connect.filled_length _ fits, reading.length]
  · have taken := take_store fits
    rw [length, reading.taken, take_append_take_drop] at taken
    exact taken
  · show c.off + _ = _
    rw [length, reading.off]

/-- What `is_receive_head` finds in the first bytes of the response. -/
theorem findSub_taken (wf : head.WellFormed) :
    findSub (CRLF ++ CRLF) ((head.bytes ++ body).take n) = if head.size ≤ n then some head.text.length else none := by
  rw [findSub_take (by decide) (wf.findSub_bytes body) n, Head.size_eq]
  rfl

theorem take_text (le : head.size ≤ n) : ((head.bytes ++ body).take n).take head.text.length = head.text := by
  have := head.size_eq
  rw [List.take_take, Nat.min_eq_left (by omega), Head.bytes, List.append_assoc, List.take_left]

/-- The handler goes on reading as long as the head is not seen. -/
theorem Reading.early_read (reading : Reading head body m c) (wf : head.WellFormed) (room : m + n ≤ 1000)
    (left : m + n ≤ (head.bytes ++ body).length) (early : m + n < head.size ∨ ¬ head.Parts) :
    Reading head body (m + n) (c.filled m (((head.bytes ++ body).drop m).take n) []).onReadHead := by
  obtain ⟨length, taken, off⟩ := reading.filled room left
  generalize fill : c.filled m (((head.bytes ++ body).drop m).take n) [] = d at length taken off
  have kept : d.head_ready = false ∧ d.callbacks = [] ∧ d.failed = false ∧ d.issued = c.issued ∧ d.reads = [] := by
    subst fill
    exact ⟨reading.ready, reading.callbacks, reading.failed, rfl, rfl⟩
  obtain ⟨ready, callbacks, failed, issued, reads⟩ := kept
  have found : findSub (CRLF ++ CRLF) (d._data.take d.off) = if head.size ≤ m + n then some head.text.length else none := by
    rw [off, taken, findSub_taken wf]
  have again : ∃ k, d.isReceiveHead = (false, { d with head_off := k }) := by
    rw [Connect.isReceiveHead, found]
    by_cases whole : head.size ≤ m + n
    · have parts : ¬ head.Parts := early.resolve_left (by omega)
      have text : (d._data.take d.off).take head.text.length = head.text := by
        rw [off, taken, take_text whole]
      simp only [if_pos whole, text, wf.split_text, Head.lines]
      refine ⟨head.text.length + 4, ?_⟩
      split
      · next three =>
        exact absurd (by rw [Head.Parts, three]; simp) parts
      · rfl
    · exact ⟨d.head_off, by rw [if_neg whole]⟩
  obtain ⟨k, again⟩ := again
  rw [Connect.onReadHead, again]
  exact {
    length := length
    bound := room
    taken := taken
    off := off
    ready := ready
    early := early
    reads := by
      show d.reads ++ [_] = _
      rw [reads, length, off]
      rfl
    callbacks := callbacks
    failed := failed
    issued := fun less => by
      show 0 ∉ d.issued ++ [d._data.length - d.off]
      rw [issued, length, off, List.mem_append, List.mem_singleton]
      rintro (there | zero)
      · exact reading.issued (by omega) there
      · omega }

/-- The read that completes the head. -/
theorem Reading.last_read (reading : Reading head body m c) (wf : head.WellFormed) (room : m + n ≤ 1000)
    (left : m + n ≤ (head.bytes ++ body).length) (whole : head.size ≤ m + n) (parts : head.Parts) :
    ∃ e, (c.filled m (((head.bytes ++ body).drop m).take n) []).isReceiveHead = (true, e) ∧ Received head body (m + n) e := by
  obtain ⟨length, taken, off⟩ := reading.filled room left
  generalize fill : c.filled m (((head.bytes ++ body).drop m).take n) [] = d at length taken off
  have kept : d.head_ready = false ∧ d.callbacks = [] ∧ d.failed = false ∧ d.issued = c.issued ∧ d.reads = [] := by
    subst fill
    exact ⟨reading.ready, reading.callbacks, reading.failed, rfl, rfl⟩
  obtain ⟨ready, callbacks, failed, issued, reads⟩ := kept
  have fewer : m < head.size := reading.early.resolve_right (not_not_intro parts)
  have found : findSub (CRLF ++ CRLF) (d._data.take d.off) = some head.text.length := by
    rw [off, taken, findSub_taken wf, if_pos whole]
  have text : (d._data.take d.off).take head.text.length = head.text := by
    rw [off, taken, take_text whole]
  have size := head.size_eq
  obtain ⟨version, code, reason, more, three⟩ : ∃ version code reason more,
      split [32] head.status = version :: code :: reason :: more := by
    match words : split [32] head.status with
    | [] | [_] | [_, _] =>
      rw [Head.Parts, words] at parts
      simp at parts
    | version :: code :: reason :: more => exact ⟨version, code, reason, more, rfl⟩
  rw [Connect.isReceiveHead, found]
  simp only [text, wf.split_text, Head.lines, three, ready]
  refine ⟨_, rfl, ?_⟩
  have rest : (d._data.drop head.size).take (m + n - head.size) = body.take (m + n - head.size) := by
    have start : (head.bytes ++ body).drop head.size = body := List.drop_left
    rw [← List.drop_take, taken, List.drop_take, start]
  have enough : m + n - head.size ≤ (d._data.drop head.size).length := by
    rw [List.length_drop, length]
    omega
  exact {
    length := by
      show (padded (d._data.drop (head.text.length + 4))).length = _
      rw [← size, length_padded, List.length_drop, length]
    bound := room
    whole := whole
    taken := by
      show (padded (d._data.drop (head.text.length + 4))).take _ = _
      rw [← size, take_padded enough, rest]
    off := off
    head_off := size.symm
    ready := rfl
    fields := wf.foldl_addHead
    empty := rfl
    reads := reads
    callbacks := callbacks
    failed := failed
    issued := by
      show 0 ∉ d.issued
      rw [issued]
      exact reading.issued (by omega) }

/-- The only outstanding read completes. -/
theorem step_single {s t : Transport} {handler : Handler} {place size : Nat} (reads : s.connect.reads = [⟨handler, place, size⟩])
    (next : step s n = some t) : n ≤ size ∧ n ≤ s.rest.length ∧ (n = 0 → size = 0) ∧
      t = ⟨(s.connect.filled place (s.rest.take n) []).handle handler, s.rest.drop n⟩ := by
  rw [step, reads] at next
  obtain ⟨⟨room, left, some⟩, ⟨⟩⟩ := Option.ite_none_right_eq_some.1 next
  refine ⟨room, left, some, ?_⟩
  rw [Connect.filled, List.length_take, Nat.min_eq_left left]

/-- No read completes with bytes any more. -/
def Over (t : Transport) : Prop := ∀ n u, 0 < n → step t n ≠ some u

theorem over_of_rest {t : Transport} (none : t.rest = []) : Over t := by
  intro n u pos next
  rw [step] at next
  split at next
  · cases next
  · obtain ⟨⟨-, left, -⟩, -⟩ := Option.ite_none_right_eq_some.1 next
    rw [none, List.length_nil] at left
    omega

/-- A read with room gets the next byte. -/
theorem not_over {t : Transport} {handler : Handler} {place size : Nat} (reads : t.connect.reads = [⟨handler, place, size⟩])
    (room : 0 < size) (more : t.rest ≠ []) : ¬ Over t := by
  intro ended
  have pos := List.length_pos_of_ne_nil more
  have next : (step t 1).isSome := by
    rw [step, reads]
    simp only
    rw [if_pos ⟨room, pos, fun none => absurd none (by decide)⟩]
    rfl
  obtain ⟨u, next⟩ := Option.isSome_iff_exists.1 next
  exact ended 1 u Nat.one_pos next

end Reads

/-- Where each read ends in the response, the first one starting at `m`. -/
def boundaries : Nat → List Nat → List Nat
  | _, [] => []
  | m, n :: ns => (m + n) :: boundaries (m + n) ns

theorem boundaries_append (m : Nat) (ns : List Nat) (n : Nat) :
    boundaries m (ns ++ [n]) = boundaries m ns ++ [m + ns.sum + n] := by
  induction ns generalizing m with
  | nil => rfl
  | cons k ns ih =>
    rw [List.cons_append, boundaries, boundaries, ih, List.sum_cons, List.cons_append, Nat.add_assoc m k]

theorem le_of_mem_boundaries {m b : Nat} {ns : List Nat} (mem : b ∈ boundaries m ns) : b ≤ m + ns.sum := by
  induction ns generalizing m with
  | nil => cases mem
  | cons k ns ih =>
    rw [List.sum_cons]
    rcases List.mem_cons.1 mem with rfl | mem
    · omega
    · have := ih mem
      omega

end GameServer.Http

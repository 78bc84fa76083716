import GameServer.Http.Head

/-!
# Responses with a length

After the head the client waits for the rest of the body with `on_read_body_has_length` (`Filling`).
When that does not get the whole rest it issues its next read with the handler `on_read_head`, which
looks for a head in the body, and never calls back (`Astray`). So the client is done with a response
exactly when at most one of its reads ends inside the body (`length_served`).
-/

namespace GameServer.Http

open GameServer.Lib

/-- A space or a tab. -/
def blank (c : UInt8) : Bool := c = 32 || c = 9

/-- The field value is the number, with blanks around it. -/
def Writes (value : List UInt8) (length : Nat) : Prop :=
  ∃ before digits after, value = before ++ (digits ++ after) ∧ (∀ c ∈ before, blank c) ∧ (∀ c ∈ after, blank c) ∧
    digits ≠ [] ∧ (∀ c ∈ digits, isdigit c) ∧ decimal digits = length

/-- The head has a Content-Length field, and every one has this length. -/
structure Head.HasLength (head : Head) (length : Nat) : Prop where
  field : ∃ field ∈ head.fields, field.1 = Connect.contentLength
  value : ∀ field ∈ head.fields, field.1 = Connect.contentLength → Writes field.2 length

/-- What `atoi` makes of a length. -/
def cut (length : Nat) : Nat := min (2 ^ 31 - 1) length

section Numbers

variable {value : List UInt8} {length : Nat}

theorem isspace_of_blank {c : UInt8} (holds : blank c) : isspace c := by
  simp only [blank, isspace, Bool.or_eq_true, decide_eq_true_eq] at holds ⊢
  rcases holds with rfl | rfl <;> decide

theorem not_isdigit_of_blank {c : UInt8} (holds : blank c) : isdigit c = false := by
  simp only [blank, Bool.or_eq_true, decide_eq_true_eq] at holds
  rcases holds with rfl | rfl <;> decide

theorem atoi_writes (writes : Writes value length) : atoi value = cut length := by
  obtain ⟨before, digits, after, rfl, blanks, rest, some, all, rfl⟩ := writes
  obtain ⟨d, ds, rfl⟩ := List.exists_cons_of_ne_nil some
  obtain ⟨space, minus, plus⟩ := not_isspace_of_isdigit (all d List.mem_cons_self)
  have skipped : (before ++ (d :: ds ++ after)).dropWhile isspace = d :: (ds ++ after) := by
    rw [List.dropWhile_append_of_pos fun c mem => isspace_of_blank (blanks c mem), List.cons_append,
      List.dropWhile_cons_of_neg (by rw [space]; exact Bool.false_ne_true)]
  have taken : (d :: (ds ++ after)).takeWhile isdigit = d :: ds := by
    rw [← List.cons_append, List.takeWhile_append_of_pos all]
    cases after with
    | nil => rw [List.takeWhile_nil, List.append_nil]
    | cons c cs =>
      rw [List.takeWhile_cons_of_neg (by rw [not_isdigit_of_blank (rest c List.mem_cons_self)]; exact Bool.false_ne_true),
        List.append_nil]
  rw [atoi, readInt, skipped]
  split
  · next same => exact absurd (List.head_eq_of_cons_eq same) minus
  · next same => exact absurd (List.head_eq_of_cons_eq same) plus
  · rw [taken, cut]
    omega

end Numbers

/-- How many reads end inside the body: at its start or later, and before its end. -/
def inside (head : Head) (body : List UInt8) (ns : List Nat) : Nat :=
  (boundaries 0 ns).countP fun b => head.size ≤ b ∧ b < head.size + body.length

/-- The head comes into the buffer and its status line has three parts, the length is an `int`, and
at most one read ends inside the body. -/
structure Complete (head : Head) (body : List UInt8) (ns : List Nat) : Prop where
  fits : head.size ≤ 1000
  parts : head.Parts
  small : body.length < 2 ^ 31
  once : inside head body ns ≤ 1

/-- The client waits for the rest of the body, of which `m` bytes with the head came. -/
structure Filling (head : Head) (body : List UInt8) (m : Nat) (c : Connect) : Prop where
  ready : c.head_ready = true
  known : c.getLength = cut body.length
  length : c._data.length = cut body.length
  whole : head.size ≤ m
  more : m < head.size + cut body.length
  taken : c._data.take (m - head.size) = body.take (m - head.size)
  off : c.off = m - head.size
  reads : c.reads = [⟨.on_read_body_has_length, m - head.size, cut body.length - (m - head.size)⟩]
  callbacks : c.callbacks = []
  issued : 0 ∉ c.issued

structure Done (head : Head) (body : List UInt8) (m : Nat) (c : Connect) : Prop where
  whole : m = head.size + cut body.length
  reads : c.reads = []
  callbacks : c.callbacks = [body.take (cut body.length)]
  issued : 0 ∉ c.issued

/-- The read that the lost client waits for has room for what is not there any more: it has filled
less of the buffer than came of the body. -/
structure Lost (head : Head) (body : List UInt8) (m : Nat) (c : Connect) : Prop where
  callbacks : c.callbacks = []
  behind : (c.reads = [⟨.on_read_head, c.off, cut body.length - c.off⟩] ∧ c.off + head.size ≤ m) ∨
    (c.reads = [⟨.on_read_body_has_length, c.off, cut body.length - c.off⟩] ∧ c.off + 4 + head.size ≤ m)

/-- The client looks for a head in the body. A body that is cut off may come to an end there. -/
structure Astray (head : Head) (body : List UInt8) (m : Nat) (c : Connect) : Prop where
  ready : c.head_ready = true
  known : c.getLength = cut body.length
  length : c._data.length = cut body.length
  off : c.off ≤ cut body.length
  short : ∀ b ∈ c.callbacks, b.length ≤ cut body.length
  reads : c.reads = [] ∨ ∃ handler, c.reads = [⟨handler, c.off, cut body.length - c.off⟩] ∧
    (handler = .on_read_head ∨ handler = .on_read_body_has_length)
  lost : body.length = cut body.length → Lost head body m c

section Steps

variable {head : Head} {body : List UInt8} {m n : Nat} {c d e : Connect}

theorem cut_le {length : Nat} : cut length ≤ length ∧ cut length ≤ 2 ^ 31 - 1 := by
  unfold cut
  omega

/-- Field names are found in the order that the last one wins. -/
theorem getLength_received (received : Received head body m c) (has : head.HasLength body.length) :
    c.getLength = cut body.length := by
  obtain ⟨value, found⟩ : ∃ value, head.fields.reverse.lookup Connect.contentLength = some value := by
    obtain ⟨field, mem, name⟩ := has.field
    rw [← Option.isSome_iff_exists, List.lookup_isSome_iff]
    exact ⟨field, List.mem_reverse.2 mem, by rw [name]; exact beq_self_eq_true _⟩
  have mem : (Connect.contentLength, value) ∈ head.fields := by
    obtain ⟨before, after, same, -⟩ := List.lookup_eq_some_iff.1 found
    apply List.mem_reverse.1
    rw [same]
    exact List.mem_append_right before List.mem_cons_self
  rw [Connect.getLength, received.fields, found]
  exact atoi_writes (has.value _ mem rfl)

/-- After the head the body is there, or the client waits for it. -/
theorem Received.onReadHead (received : Received head body m e) (has : head.HasLength body.length)
    (head_of : d.isReceiveHead = (true, e)) (left : m ≤ head.size + body.length) :
    Done head body m d.onReadHead ∨ Filling head body m d.onReadHead := by
  have length := getLength_received received has
  have bounds : cut body.length ≤ body.length ∧ cut body.length ≤ 2 ^ 31 - 1 := cut_le
  have whole := received.whole
  have bound := received.bound
  rw [Connect.onReadHead, head_of]
  simp only [length, received.off, received.head_off]
  rw [if_pos (by omega)]
  have sum : ((head.size : Int) + (cut body.length : Nat)) % 2 ^ 32 = (head.size + cut body.length : Nat) := by
    rw [Int.emod_eq_of_lt] <;> omega
  rw [sum, if_neg (by omega)]
  split_ifs with there
  · left
    have same : m = head.size + cut body.length := by
      unfold cut at there bounds ⊢
      omega
    refine ⟨same, received.reads, ?_, received.issued⟩
    show e.callbacks ++ [e._data.take (cut body.length : Int).toNat] = _
    have taken := received.taken
    rw [same, Nat.add_sub_cancel_left] at taken
    rw [received.callbacks, Int.toNat_natCast, taken]
    rfl
  · right
    have more : m < head.size + cut body.length := by omega
    refine ⟨received.ready, length, length_resize, whole, more, ?_, rfl, ?_, received.callbacks, ?_⟩
    · show (resize (cut body.length : Int).toNat e._data).take _ = _
      rw [Int.toNat_natCast, take_resize, received.taken]
      · rw [received.length]
        omega
      · omega
    · rw [Connect.reads_asyncRead]
      show e.reads ++ [⟨_, _, (resize (cut body.length : Int).toNat e._data).length - _⟩] = _
      rw [received.reads, length_resize, Int.toNat_natCast]
      rfl
    · rw [Connect.issued_asyncRead]
      show 0 ∉ e.issued ++ [(resize (cut body.length : Int).toNat e._data).length - _]
      rw [length_resize, Int.toNat_natCast, List.mem_append, List.mem_singleton]
      rintro (there | zero)
      · exact received.issued there
      · omega

/-- The read gets the rest of the body, or leaves the client astray. -/
theorem Filling.onReadBodyHasLength (filling : Filling head body m c)
    (room : n ≤ cut body.length - (m - head.size)) :
    let d := (c.filled (m - head.size) ((body.drop (m - head.size)).take n) []).onReadBodyHasLength
    Done head body (m + n) d ∨ (m + n < head.size + cut body.length ∧ Astray head body (m + n) d) := by
  have whole := filling.whole
  have more := filling.more
  have bounds : cut body.length ≤ body.length ∧ cut body.length ≤ 2 ^ 31 - 1 := cut_le
  have came : ((body.drop (m - head.size)).take n).length = n := by
    rw [List.length_take, List.length_drop]
    omega
  have fits : m - head.size + ((body.drop (m - head.size)).take n).length ≤ c._data.length := by
    rw [came, filling.length]
    omega
  have length := Connect.filled_length [] fits
  have taken := take_store fits
  rw [came, filling.taken, take_append_take_drop] at taken
  rw [filling.length] at length
  have off : (c.filled (m - head.size) ((body.drop (m - head.size)).take n) []).off = m - head.size + n := by
    show c.off + _ = _
    rw [came, filling.off]
  intro d
  by_cases last : m - head.size + n < cut body.length
  · right
    have lost : d = (c.filled (m - head.size) ((body.drop (m - head.size)).take n) []).asyncRead .on_read_head
        (m - head.size + n) := by
      show Connect.onReadBodyHasLength _ = _
      rw [Connect.onReadBodyHasLength, length, off, if_pos last]
    have here : d.off = m - head.size + n := by
      rw [lost]
      exact off
    have reads : d.reads = [⟨.on_read_head, d.off, cut body.length - d.off⟩] := by
      rw [here, lost, Connect.reads_asyncRead, length]
      rfl
    have callbacks : d.callbacks = [] := by
      rw [lost]
      exact filling.callbacks
    refine ⟨by omega, ?_⟩
    exact {
      ready := by rw [lost]; exact filling.ready
      known := by rw [lost]; exact filling.known
      length := by rw [lost]; exact length
      off := by omega
      short := by
        rw [callbacks]
        exact nofun
      reads := .inr ⟨_, reads, .inl rfl⟩
      lost := fun _ => ⟨callbacks, .inl ⟨reads, by omega⟩⟩ }
  · left
    have all : m - head.size + n = cut body.length := by omega
    refine ⟨by omega, ?_, ?_, ?_⟩
    · show (Connect.onReadBodyHasLength _).reads = _
      rw [Connect.onReadBodyHasLength, length, off, if_neg last]
      rfl
    · show (Connect.onReadBodyHasLength _).callbacks = _
      rw [Connect.onReadBodyHasLength, length, off, if_neg last]
      show c.callbacks ++ [(store c._data (m - head.size) _).take (m - head.size + n)] = _
      rw [filling.callbacks, taken, all]
      rfl
    · show 0 ∉ (Connect.onReadBodyHasLength _).issued
      rw [Connect.onReadBodyHasLength, length, off, if_neg last]
      exact filling.issued

/-- What `on_read_head` does in the body: it waits for the rest of a head or, if it finds one, for a body
behind it. -/
theorem onReadHead_astray (ready : c.head_ready = true) (known : c.getLength = cut body.length)
    (length : c._data.length = cut body.length) (off : c.off ≤ cut body.length) :
    (∃ k, c.onReadHead = { c with head_off := k }.asyncRead .on_read_head c.off) ∨
    ∃ k, 4 ≤ k ∧ k ≤ c.off ∧ c.onReadHead =
      { c with head_off := k, _data := resize (cut body.length) c._data, off := c.off - k }.asyncRead
        .on_read_body_has_length (c.off - k) := by
  have bounds : cut body.length ≤ body.length ∧ cut body.length ≤ 2 ^ 31 - 1 := cut_le
  have looks : (∃ k, c.isReceiveHead = (false, { c with head_off := k })) ∨
      ∃ k, 4 ≤ k ∧ k ≤ c.off ∧ c.isReceiveHead = (true, { c with head_off := k }) := by
    cases found : findSub (CRLF ++ CRLF) (c._data.take c.off) with
    | none => exact .inl ⟨c.head_off, by rw [Connect.isReceiveHead, found]⟩
    | some pos =>
      have within := add_length_le_of_findSub found
      rw [List.length_take] at within
      have four : (CRLF ++ CRLF).length = 4 := rfl
      rw [Connect.isReceiveHead, found]
      simp only [ready, if_true]
      split
      · exact .inl ⟨_, rfl⟩
      · split
        · exact .inr ⟨pos + 4, by omega, by omega, rfl⟩
        · exact .inl ⟨_, rfl⟩
  rcases looks with ⟨k, looks⟩ | ⟨k, four, le, looks⟩
  · left
    exact ⟨k, by rw [Connect.onReadHead, looks]⟩
  · right
    refine ⟨k, four, le, ?_⟩
    have known' : Connect.getLength { c with head_off := k } = cut body.length := known
    rw [Connect.onReadHead, looks]
    simp only [known']
    rw [if_pos (by omega), if_neg (by omega), if_neg, Int.toNat_natCast]
    rw [Int.emod_eq_of_lt] <;> omega

theorem Astray.onReadHead (astray : Astray head body m c) (bytes : List UInt8)
    (room : c.off + bytes.length ≤ cut body.length)
    (behind : body.length = cut body.length → c.callbacks = [] ∧ c.off + head.size ≤ m) :
    Astray head body (m + bytes.length) (c.filled c.off bytes []).onReadHead := by
  have fits : c.off + bytes.length ≤ c._data.length := by
    rw [astray.length]
    exact room
  have length := (Connect.filled_length [] fits).trans astray.length
  have off : (c.filled c.off bytes []).off = c.off + bytes.length := rfl
  rcases onReadHead_astray (c := c.filled c.off bytes []) astray.ready astray.known length room with ⟨k, next⟩ | ⟨k, four, le, next⟩
  · have reads : (c.filled c.off bytes []).onReadHead.reads =
        [⟨.on_read_head, c.off + bytes.length, cut body.length - (c.off + bytes.length)⟩] := by
      rw [next, Connect.reads_asyncRead]
      show [] ++ [(⟨_, _, (c.filled c.off bytes [])._data.length - _⟩ : Read)] = _
      rw [length]
      rfl
    have same : (c.filled c.off bytes []).onReadHead.off = c.off + bytes.length := by
      rw [next]
      rfl
    rw [← same] at reads
    exact {
      ready := by rw [next]; exact astray.ready
      known := by rw [next]; exact astray.known
      length := by rw [next]; exact length
      off := by rw [same]; exact room
      short := by rw [next]; exact astray.short
      reads := .inr ⟨_, reads, .inl rfl⟩
      lost := fun fits => by
        obtain ⟨callbacks, behind⟩ := behind fits
        exact ⟨by rw [next]; exact callbacks, .inl ⟨reads, by omega⟩⟩ }
  · have reads : (c.filled c.off bytes []).onReadHead.reads =
        [⟨.on_read_body_has_length, c.off + bytes.length - k, cut body.length - (c.off + bytes.length - k)⟩] := by
      rw [next, Connect.reads_asyncRead]
      show [] ++ [(⟨_, _, (resize (cut body.length) _).length - _⟩ : Read)] = _
      rw [length_resize]
      rfl
    have same : (c.filled c.off bytes []).onReadHead.off = c.off + bytes.length - k := by
      rw [next]
      rfl
    rw [← same] at reads
    exact {
      ready := by rw [next]; exact astray.ready
      known := by rw [next]; exact astray.known
      length := by rw [next]; exact length_resize
      off := by rw [same]; omega
      short := by rw [next]; exact astray.short
      reads := .inr ⟨_, reads, .inr rfl⟩
      lost := fun fits => by
        obtain ⟨callbacks, behind⟩ := behind fits
        exact ⟨by rw [next]; exact callbacks, .inr ⟨reads, by omega⟩⟩ }

theorem Astray.onReadBodyHasLength (astray : Astray head body m c) (bytes : List UInt8)
    (room : c.off + bytes.length ≤ cut body.length) (left : m + bytes.length ≤ head.size + body.length)
    (behind : body.length = cut body.length → c.callbacks = [] ∧ c.off + 4 + head.size ≤ m) :
    Astray head body (m + bytes.length) (c.filled c.off bytes []).onReadBodyHasLength := by
  have fits : c.off + bytes.length ≤ c._data.length := by
    rw [astray.length]
    exact room
  have length := (Connect.filled_length [] fits).trans astray.length
  have off : (c.filled c.off bytes []).off = c.off + bytes.length := rfl
  rw [Connect.onReadBodyHasLength, length, off]
  split_ifs with more
  · have reads : ((c.filled c.off bytes []).asyncRead .on_read_head (c.off + bytes.length)).reads =
        [⟨.on_read_head, c.off + bytes.length, cut body.length - (c.off + bytes.length)⟩] := by
      rw [Connect.reads_asyncRead, length]
      rfl
    exact {
      ready := astray.ready
      known := astray.known
      length := length
      off := room
      short := astray.short
      reads := .inr ⟨_, reads, .inl rfl⟩
      lost := fun fits => by
        obtain ⟨callbacks, behind⟩ := behind fits
        refine ⟨callbacks, .inl ⟨reads, ?_⟩⟩
        show c.off + bytes.length + head.size ≤ _
        omega }
  · exact {
      ready := astray.ready
      known := astray.known
      length := length
      off := room
      short := fun b mem => by
        rcases List.mem_append.1 mem with mem | mem
        · exact astray.short b mem
        · obtain rfl := List.mem_singleton.1 mem
          show ((c.filled c.off bytes [])._data.take _).length ≤ _
          rw [List.length_take, length]
          exact Nat.min_le_right _ _
      reads := .inl rfl
      lost := fun fits => by
        obtain ⟨-, behind⟩ := behind fits
        omega }

/-- A read that ends inside the body counts. -/
theorem inside_append (head : Head) (body : List UInt8) (ns : List Nat) (n : Nat) : inside head body (ns ++ [n]) =
    inside head body ns + if head.size ≤ ns.sum + n ∧ ns.sum + n < head.size + body.length then 1 else 0 := by
  rw [inside, boundaries_append, List.countP_append, List.countP_singleton, Nat.zero_add, inside]
  simp only [decide_eq_true_eq]

theorem inside_eq_zero {ns : List Nat} (early : ns.sum < head.size) : inside head body ns = 0 := by
  rw [inside, List.countP_eq_zero]
  intro b mem holds
  have := le_of_mem_boundaries mem
  simp only [decide_eq_true_eq] at holds
  omega

/-- Where the client is after reads of these sizes. -/
structure Inv (head : Head) (body : List UInt8) (ns : List Nat) (t : Transport) : Prop where
  rest : t.rest = (head.bytes ++ body).drop ns.sum
  left : ns.sum ≤ (head.bytes ++ body).length
  phase : Reading head body ns.sum t.connect ∨
    ((head.Parts ∧ head.size ≤ 1000) ∧
      ((Filling head body ns.sum t.connect ∧ inside head body ns = 1) ∨
        (Done head body ns.sum t.connect ∧ (body.length = cut body.length → inside head body ns ≤ 1)) ∨
        (Astray head body ns.sum t.connect ∧ (body.length = cut body.length → 2 ≤ inside head body ns))))

theorem Inv.step {ns : List Nat} {s t : Transport} (inv : Inv head body ns s) (wf : head.WellFormed)
    (has : head.HasLength body.length) (next : step s n = some t) : Inv head body (ns ++ [n]) t := by
  obtain ⟨rest, left, phase⟩ := inv
  have total : (head.bytes ++ body).length = head.size + body.length := List.length_append
  have bounds : cut body.length ≤ body.length ∧ cut body.length ≤ 2 ^ 31 - 1 := cut_le
  have sum : (ns ++ [n]).sum = ns.sum + n := by simp
  have count := inside_append head body ns n
  rcases phase with reading | ⟨⟨parts, fits⟩, ⟨filling, once⟩ | ⟨done, once⟩ | ⟨astray, twice⟩⟩
  · obtain ⟨room, most, -, rfl⟩ := step_single reading.reads next
    have bound := reading.bound
    rw [rest, List.length_drop] at most
    refine ⟨by rw [sum, ← List.drop_drop, ← rest], by omega, ?_⟩
    rw [sum, rest]
    by_cases early : ns.sum + n < head.size ∨ ¬ head.Parts
    · exact .inl (reading.early_read wf (by omega) (by omega) early)
    · obtain ⟨whole, parts⟩ := not_or.1 early
      have parts := not_not.1 parts
      obtain ⟨e, head_of, received⟩ := reading.last_read wf (n := n) (by omega) (by omega) (by omega) parts
      have fewer : ns.sum < head.size := reading.early.resolve_right (not_not_intro parts)
      rw [inside_eq_zero fewer] at count
      refine .inr ⟨⟨parts, by omega⟩, ?_⟩
      rcases received.onReadHead has head_of (by omega) with done | filling
      · have whole := done.whole
        refine .inr (.inl ⟨done, fun _ => ?_⟩)
        rw [count]
        split_ifs <;> omega
      · have more := filling.more
        refine .inl ⟨filling, ?_⟩
        rw [count, if_pos (by omega)]
  · obtain ⟨room, most, -, rfl⟩ := step_single filling.reads next
    have whole := filling.whole
    have more := filling.more
    rw [rest, List.length_drop] at most
    have tail : (head.bytes ++ body).drop ns.sum = body.drop (ns.sum - head.size) := by
      rw [List.drop_append, List.drop_eq_nil_of_le whole, List.nil_append]
      rfl
    refine ⟨by rw [sum, ← List.drop_drop, ← rest], by omega, .inr ⟨⟨parts, fits⟩, ?_⟩⟩
    rw [sum, rest, tail]
    rcases filling.onReadBodyHasLength room with done | ⟨early, astray⟩
    · have whole := done.whole
      refine .inr (.inl ⟨done, fun same => ?_⟩)
      rw [count, if_neg (by omega)]
      omega
    · refine .inr (.inr ⟨astray, fun _ => ?_⟩)
      rw [count, if_pos (by omega)]
      omega
  · rw [Http.step, done.reads] at next
    cases next
  · rcases astray.reads with none | ⟨handler, reads, which⟩
    · rw [Http.step, none] at next
      cases next
    obtain ⟨room, most, -, rfl⟩ := step_single reads next
    have off := astray.off
    have bytes : (s.rest.take n).length = n := by
      rw [List.length_take]
      omega
    rw [rest, List.length_drop] at most
    refine ⟨by rw [sum, ← List.drop_drop, ← rest], by omega, .inr ⟨⟨parts, fits⟩, .inr (.inr ⟨?_, fun same => ?_⟩)⟩⟩
    · rw [sum]
      rcases which with rfl | rfl
      · have lost := astray.onReadHead (s.rest.take n) (by omega) fun same => ?_
        · rw [bytes] at lost
          exact lost
        · obtain ⟨callbacks, ⟨-, behind⟩ | ⟨other, -⟩⟩ := astray.lost same
          · exact ⟨callbacks, behind⟩
          · rw [reads] at other
            cases other
      · have lost := astray.onReadBodyHasLength (s.rest.take n) (by omega) (by omega) fun same => ?_
        · rw [bytes] at lost
          exact lost
        · obtain ⟨callbacks, ⟨other, -⟩ | ⟨-, behind⟩⟩ := astray.lost same
          · rw [reads] at other
            cases other
          · exact ⟨callbacks, behind⟩
    · have := twice same
      omega

theorem Inv.of_runs {ns : List Nat} {t : Transport} (wf : head.WellFormed) (has : head.HasLength body.length)
    (run : Runs Http.step (fun _ _ => True) (.init (head.bytes ++ body)) ns t) : Inv head body ns t := by
  induction run with
  | refl => exact ⟨rfl, Nat.zero_le _, .inl Reading.init⟩
  | snoc _ _ next ih => exact ih.step wf has next

/-- **A response with a length is read** with one call of `_callback`, for its body, and no read of length
zero, exactly when the head comes into the buffer, its status line has three parts, the length is an
`int` and at most one read ends inside the body. -/
theorem length_served {ns : List Nat} {t : Transport} (wf : head.WellFormed) (has : head.HasLength body.length)
    (run : Runs Http.step (fun _ _ => True) (.init (head.bytes ++ body)) ns t) (ended : Over t) :
    t.connect.callbacks = [body] ∧ 0 ∉ t.connect.issued ↔ Complete head body ns := by
  obtain ⟨rest, left, phase⟩ := Inv.of_runs wf has run
  have total : (head.bytes ++ body).length = head.size + body.length := List.length_append
  have bounds : cut body.length ≤ body.length ∧ cut body.length ≤ 2 ^ 31 - 1 := cut_le
  have going : ns.sum < head.size + body.length → t.rest ≠ [] := by
    intro less none
    rw [rest, List.drop_eq_nil_iff] at none
    omega
  rcases phase with reading | ⟨⟨parts, fits⟩, ⟨filling, once⟩ | ⟨done, once⟩ | ⟨astray, twice⟩⟩
  · refine iff_of_false ?_ ?_
    · rintro ⟨callbacks, -⟩
      rw [reading.callbacks] at callbacks
      cases callbacks
    · rintro ⟨fits, parts, -, -⟩
      have early : ns.sum < head.size := reading.early.resolve_right (not_not_intro parts)
      have room : 0 < 1000 - ns.sum := by omega
      exact not_over reading.reads room (going (by omega)) ended
  · have whole := filling.whole
    have more := filling.more
    have room : 0 < cut body.length - (ns.sum - head.size) := by omega
    exact absurd ended (not_over filling.reads room (going (by omega)))
  · rw [done.callbacks]
    constructor
    · rintro ⟨same, -⟩
      have length := congrArg List.length (List.head_eq_of_cons_eq same)
      rw [List.length_take] at length
      exact ⟨fits, parts, by omega, once (by omega)⟩
    · intro complete
      have small := complete.small
      have whole : cut body.length = body.length := by
        unfold cut
        omega
      rw [whole, List.take_length]
      exact ⟨rfl, done.issued⟩
  · refine iff_of_false ?_ ?_
    · rintro ⟨callbacks, -⟩
      by_cases whole : body.length = cut body.length
      · rw [(astray.lost whole).callbacks] at callbacks
        cases callbacks
      · have short := astray.short body (by rw [callbacks]; exact List.mem_singleton_self _)
        omega
    · rintro ⟨-, -, small, most⟩
      have whole : body.length = cut body.length := by
        unfold cut
        omega
      have := twice whole
      omega

end Steps

/-- "a b c", Content-Length:3. -/
def smallHead : Head := ⟨[97, 32, 98, 32, 99], [(Connect.contentLength, [51])]⟩

theorem smallHead_wellFormed : smallHead.WellFormed := ⟨by decide, by decide, by decide, by decide⟩

theorem smallHead_hasLength : smallHead.HasLength 3 := by
  refine ⟨⟨_, List.mem_singleton_self _, rfl⟩, fun field mem _ => ?_⟩
  obtain rfl := List.mem_singleton.1 mem
  exact ⟨[], [51], [], rfl, nofun, nofun, by decide, List.forall_mem_singleton.2 (by decide), by decide⟩

/-- The head with one byte, and the other two. -/
theorem length_served_split : ∃ t, Runs step (fun _ _ => True) (.init (smallHead.bytes ++ [120, 121, 122])) [28, 2] t ∧
    Over t ∧ Complete smallHead [120, 121, 122] [28, 2] ∧ t.connect.callbacks = [[120, 121, 122]] ∧ 0 ∉ t.connect.issued := by
  have reached : ∃ t, Runs step (fun _ _ => True) (.init (smallHead.bytes ++ [120, 121, 122])) [28, 2] t ∧ t.rest = [] := by
    apply Runs.exists_of_decide
    decide +kernel
  obtain ⟨t, run, none⟩ := reached
  have complete : Complete smallHead [120, 121, 122] [28, 2] := ⟨by decide, by decide, by decide, by decide⟩
  have served := @length_served smallHead [120, 121, 122] [28, 2] t smallHead_wellFormed smallHead_hasLength run (over_of_rest none)
  exact ⟨t, run, over_of_rest none, complete, served.2 complete⟩

/-- The body comes byte by byte after the head. -/
theorem length_missed : smallHead.WellFormed ∧ smallHead.HasLength 3 ∧
    ∃ t, Runs step (fun _ _ => True) (.init (smallHead.bytes ++ [120, 121, 122])) [27, 1, 1, 1] t ∧
      Over t ∧ t.connect.callbacks = [] ∧ 0 ∈ t.connect.issued := by
  have reached : ∃ t, Runs step (fun _ _ => True) (.init (smallHead.bytes ++ [120, 121, 122])) [27, 1, 1, 1] t ∧
      t.rest = [] ∧ t.connect.callbacks = [] ∧ 0 ∈ t.connect.issued := by
    apply Runs.exists_of_decide
    decide +kernel
  obtain ⟨t, run, none, callbacks, zero⟩ := reached
  exact ⟨smallHead_wellFormed, smallHead_hasLength, t, run, over_of_rest none, callbacks, zero⟩

end GameServer.Http

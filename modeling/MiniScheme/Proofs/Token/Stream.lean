import MiniScheme.Proofs.Token.Tiling

/-! Streams. Under any interleaving of calls on streams over one source, the replies of one stream
run once through the tokens of the source. After the last one the stream stops, and every further
reply is that stop. -/
namespace MiniScheme

def Stop.ofFault : Option LexError → Stop
  | none => .finished
  | some e => .fault e

theorem Stop.ofFault_fault? (stop : Stop) : ofFault stop.fault? = stop := by
  cases stop <;> rfl

theorem Stop.fault?_ofFault (fault : Option LexError) : (ofFault fault).fault? = fault := by
  cases fault <;> rfl

theorem Stop.length_items_le (stop : Stop) : stop.items.length ≤ 1 := by
  cases stop with
  | finished => exact Nat.zero_le _
  | fault e => exact Nat.le_refl _

namespace Stream

/-- `s.Holds ts stop`: the stream has the tokens `ts` still to deliver, and then stops. -/
inductive Holds : Stream → List Token → Stop → Prop where
  | stopped {c : Cursor} {stop : Stop} : Holds ⟨c, some stop⟩ [] stop
  | finished {c : Cursor} (h : c.next = .finished) : Holds ⟨c, none⟩ [] .finished
  | fault {c : Cursor} {e : LexError} (h : c.next = .fault e) : Holds ⟨c, none⟩ [] (.fault e)
  | token {c c' : Cursor} {t : Token} {ts : List Token} {stop : Stop} (h : c.next = .token t c')
      (hr : Holds ⟨c', none⟩ ts stop) : Holds ⟨c, none⟩ (t :: ts) stop

theorem holds_collect (c : Cursor) :
    Holds ⟨c, none⟩ c.collect.1.1 (.ofFault c.collect.1.2) := by
  induction hn : c.rest.length using Nat.strongRecOn generalizing c with
  | ind n ih =>
    subst hn
    cases h : c.next with
    | finished =>
      rw [Cursor.collect_finished h]
      exact .finished h
    | fault e =>
      rw [Cursor.collect_fault h]
      exact .fault h
    | token t c' =>
      rw [Cursor.collect_token h]
      exact .token h (ih _ (Cursor.reads_of_next h).length_lt c' rfl)

section

variable {s : Stream} {t : Token} {ts : List Token} {stop : Stop}

theorem Holds.length_le (h : s.Holds ts stop) : ts.length ≤ s.cursor.rest.length := by
  induction h with
  | stopped | finished | fault => exact Nat.zero_le _
  | token hn _ ih => exact Nat.lt_of_le_of_lt ih (Cursor.reads_of_next hn).length_lt

theorem Holds.next_nil (h : s.Holds [] stop) :
    ∃ last, s.next = (.error stop, last) ∧ last.Holds [] stop := by
  cases h with
  | @stopped c => exact ⟨⟨c, some stop⟩, rfl, .stopped⟩
  | @finished c hn =>
    refine ⟨⟨c, some .finished⟩, ?_, .stopped⟩
    simp only [next, hn]
  | @fault c e hn =>
    refine ⟨⟨c, some (.fault e)⟩, ?_, .stopped⟩
    simp only [next, hn]

theorem Holds.next_cons (h : s.Holds (t :: ts) stop) :
    ∃ rest, s.next = (.ok t, rest) ∧ rest.Holds ts stop := by
  cases h with
  | @token c c' _ _ _ hn hr =>
    refine ⟨⟨c', none⟩, ?_, hr⟩
    simp only [next, hn]

/-- An iteration yields a prefix of the remaining items. -/
theorem Holds.take (h : s.Holds ts stop) (count : Nat) :
    ∃ last, s.take count = ((ts.map Item.token ++ stop.items).take count, last) ∧
      last.Holds (ts.drop count) stop := by
  induction count generalizing s ts with
  | zero => exact ⟨s, rfl, h⟩
  | succ count ih =>
    cases ts with
    | nil =>
      obtain ⟨last, hnext, hlast⟩ := h.next_nil
      refine ⟨last, ?_, hlast⟩
      have hitems : stop.items.take (count + 1) = stop.items :=
        List.take_of_length_le (Nat.le_add_left_of_le stop.length_items_le)
      rw [Stream.take, hnext, List.map_nil, List.nil_append, hitems]
    | cons t ts =>
      obtain ⟨rest, hnext, hrest⟩ := h.next_cons
      obtain ⟨last, htake, hlast⟩ := ih hrest
      refine ⟨last, ?_, hlast⟩
      rw [Stream.take, hnext]
      simp only [htake]
      rfl

theorem Holds.take_of_lt (h : s.Holds ts stop) {n : Nat} (hn : n < ts.length) :
    ∃ last, s.take (n + 1) = ((ts.take (n + 1)).map Item.token, last) ∧
      last.Holds (ts.drop (n + 1)) stop := by
  obtain ⟨last, htake, hlast⟩ := h.take (n + 1)
  rw [List.take_append_of_le_length (by simp; omega), ← List.map_take] at htake
  exact ⟨last, htake, hlast⟩

theorem Holds.take_of_le (h : s.Holds ts stop) {n : Nat} (hn : ts.length ≤ n) :
    ∃ last, s.take (n + 1) = (ts.map Item.token ++ stop.items, last) ∧ last.Holds [] stop := by
  obtain ⟨last, htake, hlast⟩ := h.take (n + 1)
  have hitems := stop.length_items_le
  rw [List.take_of_length_le (by simp; omega)] at htake
  rw [List.drop_of_length_le (by omega)] at hlast
  exact ⟨last, htake, hlast⟩

theorem Holds.all (h : s.Holds ts stop) :
    ∃ last, s.all = (ts.map Item.token ++ stop.items, last) ∧ last.Holds [] stop :=
  h.take_of_le h.length_le

theorem filterMap_token?_map (ts : List Token) :
    (ts.map Item.token).filterMap Item.token? = ts := by
  rw [List.filterMap_map]
  exact List.filterMap_some

theorem filterMap_token?_items (ts : List Token) (stop : Stop) :
    (ts.map Item.token ++ stop.items).filterMap Item.token? = ts := by
  have hstop : stop.items.filterMap Item.token? = [] := by cases stop <;> rfl
  rw [List.filterMap_append, hstop, List.append_nil, filterMap_token?_map]

theorem findSome?_fault?_items (ts : List Token) (stop : Stop) :
    (ts.map Item.token ++ stop.items).findSome? Item.fault? = stop.fault? := by
  have htokens : (ts.map Item.token).findSome? Item.fault? = none := by
    simp [Item.fault?]
  rw [List.findSome?_append, htokens]
  cases stop <;> rfl

theorem Holds.collect (h : s.Holds ts stop) :
    ∃ last, s.collect = ((ts, stop.fault?), last) ∧ last.Holds [] stop := by
  obtain ⟨last, hall, hlast⟩ := h.all
  refine ⟨last, ?_, hlast⟩
  simp only [Stream.collect, hall, filterMap_token?_items, findSome?_fault?_items]

end

/-- A request to a stream. An iteration may break at an item, counted from zero. -/
inductive Call where
  | next
  | all (breakAt : Option Nat)
  | collect
deriving DecidableEq, Repr

inductive Reply where
  | next (result : Except Stop Token)
  | yielded (items : List Item)
  | collected (tokens : List Token) (fault : Option LexError)
deriving DecidableEq, Repr

def answer (s : Stream) : Call → Reply × Stream
  | .next => (.next s.next.1, s.next.2)
  | .all none => (.yielded s.all.1, s.all.2)
  | .all (some n) => (.yielded (s.take (n + 1)).1, (s.take (n + 1)).2)
  | .collect => (.collected s.collect.1.1 s.collect.1.2, s.collect.2)

def Reply.tokens : Reply → List Token
  | next (.ok t) => [t]
  | next (.error _) => []
  | yielded items => items.filterMap Item.token?
  | collected tokens _ => tokens

/-- The reply that delivers the tokens `ts` and then a stop. -/
def Call.last (ts : List Token) (stop : Stop) : Call → Reply
  | next => .next (.error stop)
  | all _ => .yielded (ts.map Item.token ++ stop.items)
  | collect => .collected ts stop.fault?

/-- `Reports call reply stop`: the reply reports the stop. An iteration that yields no error has
reached the end of the source unless it was broken. -/
inductive Reports : Call → Reply → Stop → Prop where
  | next {stop : Stop} : Reports .next (.next (.error stop)) stop
  | fault {breakAt : Option Nat} {items : List Item} {e : LexError} (h : .fault e ∈ items) :
      Reports (.all breakAt) (.yielded items) (.fault e)
  | finished {breakAt : Option Nat} {items : List Item} (h : ∀ e, .fault e ∉ items)
      (hb : ∀ n ∈ breakAt, items.length ≤ n) : Reports (.all breakAt) (.yielded items) .finished
  | collect {ts : List Token} {fault : Option LexError} :
      Reports .collect (.collected ts fault) (.ofFault fault)

section

variable {s : Stream} {ts : List Token} {stop : Stop}

/-- The effect of one reply on a stream that holds `ts`: it delivers a prefix of them and no stop,
or all of them and the stop. -/
inductive Turn (call : Call) (reply : Reply) (rest : Stream) (ts : List Token) (stop : Stop) :
    Prop where
  | onward (left : List Token) (hne : reply.tokens ≠ []) (hts : ts = reply.tokens ++ left)
      (hreports : ∀ stop', ¬Reports call reply stop') (hrest : rest.Holds left stop)
  | final (hreply : reply = call.last ts stop) (hts : reply.tokens = ts)
      (hrest : rest.Holds [] stop)

theorem not_reports_of_lt {n : Nat} (h : n < ts.length) (stop' : Stop) :
    ¬Reports (.all (some n)) (.yielded (ts.map Item.token)) stop' := by
  intro hreports
  cases hreports with
  | fault hfault =>
    obtain ⟨t, -, ht⟩ := List.mem_map.1 hfault
    cases ht
  | finished hnone hb =>
    have hle := hb n rfl
    rw [List.length_map] at hle
    omega

/-- The step lemma: every call is one turn. -/
theorem Holds.answer (h : s.Holds ts stop) (call : Call) :
    Turn call (s.answer call).1 (s.answer call).2 ts stop := by
  cases call with
  | next =>
    cases ts with
    | nil =>
      obtain ⟨last, hnext, hlast⟩ := h.next_nil
      simp only [Stream.answer, hnext]
      exact .final rfl rfl hlast
    | cons t ts =>
      obtain ⟨rest, hnext, hrest⟩ := h.next_cons
      simp only [Stream.answer, hnext]
      exact .onward ts (List.cons_ne_nil _ _) rfl (fun _ hreports => nomatch hreports) hrest
  | collect =>
    obtain ⟨last, hcollect, hlast⟩ := h.collect
    simp only [Stream.answer, hcollect]
    exact .final rfl rfl hlast
  | all breakAt =>
    cases breakAt with
    | none =>
      obtain ⟨last, hall, hlast⟩ := h.all
      simp only [Stream.answer, hall]
      exact .final rfl (filterMap_token?_items ts stop) hlast
    | some n =>
      by_cases hn : n < ts.length
      · obtain ⟨last, htake, hlast⟩ := h.take_of_lt hn
        have hlength : (ts.take (n + 1)).length = n + 1 := by simp; omega
        have htokens : (Reply.yielded ((ts.take (n + 1)).map Item.token)).tokens =
            ts.take (n + 1) := filterMap_token?_map _
        simp only [Stream.answer, htake]
        refine .onward (ts.drop (n + 1)) ?_ ?_ (not_reports_of_lt (by omega)) hlast
        · rw [htokens]
          exact List.ne_nil_of_length_eq_add_one hlength
        · rw [htokens, List.take_append_drop]
      · obtain ⟨last, htake, hlast⟩ := h.take_of_le (Nat.not_lt.1 hn)
        simp only [Stream.answer, htake]
        exact .final rfl (filterMap_token?_items ts stop) hlast

theorem Reports.eq_of_last {call : Call} {stop' : Stop}
    (h : Reports call (call.last ts stop) stop') : stop' = stop := by
  cases call with
  | next => cases h; rfl
  | collect =>
    cases h
    exact Stop.ofFault_fault? stop
  | all breakAt =>
    cases h with
    | fault hfault => cases stop <;> simp_all [Stop.items]
    | finished hnone =>
      cases stop with
      | finished => rfl
      | fault e => exact absurd (by simp [Stop.items]) (hnone e)

end

inductive Plays : Stream → List (Call × Reply) → Prop where
  | nil {s : Stream} : Plays s []
  | cons {s : Stream} {call : Call} {log : List (Call × Reply)} (h : Plays (s.answer call).2 log) :
      Plays s ((call, (s.answer call).1) :: log)

def delivered (log : List (Call × Reply)) : List Token :=
  log.flatMap (·.2.tokens)

@[simp] theorem delivered_nil : delivered [] = [] := rfl

@[simp] theorem delivered_cons (call : Call) (reply : Reply) (log : List (Call × Reply)) :
    delivered ((call, reply) :: log) = reply.tokens ++ delivered log := rfl

section

variable {s : Stream} {ts : List Token} {stop : Stop} {log : List (Call × Reply)}

theorem Plays.exists_rest (hp : Plays s log) (h : s.Holds ts stop) :
    ∃ rest, delivered log ++ rest = ts := by
  induction hp generalizing ts with
  | nil => exact ⟨ts, rfl⟩
  | @cons s call log _ ih =>
    cases h.answer call with
    | onward left hne hts hreports hrest =>
      obtain ⟨rest, hleft⟩ := ih hrest
      exact ⟨rest, by rw [delivered_cons, List.append_assoc, hleft, hts]⟩
    | final hreply hts hrest =>
      obtain ⟨rest, hnone⟩ := ih hrest
      exact ⟨rest, by rw [delivered_cons, List.append_assoc, hnone, hts, List.append_nil]⟩

/-- A stream with nothing left replies with its stop for ever. -/
theorem Plays.stopped (hp : Plays s log) (h : s.Holds [] stop) :
    ∀ e ∈ log, e.2 = e.1.last [] stop := by
  induction hp with
  | nil => simp
  | @cons s call log _ ih =>
    cases h.answer call with
    | onward left hne hts => exact absurd (List.append_eq_nil_iff.1 hts.symm).1 hne
    | final hreply hts hrest => exact List.forall_mem_cons.2 ⟨hreply, ih hrest⟩

theorem Plays.reports {before after : List (Call × Reply)} {call : Call} {reply : Reply}
    {stop' : Stop} (hp : Plays s (before ++ (call, reply) :: after)) (h : s.Holds ts stop)
    (hr : Reports call reply stop') :
    stop' = stop ∧ delivered (before ++ [(call, reply)]) = ts ∧
      reply = call.last reply.tokens stop ∧ ∀ e ∈ after, e.2 = e.1.last [] stop := by
  induction before generalizing s ts with
  | nil =>
    cases hp with
    | cons hafter =>
      cases h.answer call with
      | onward left hne hts hreports => exact absurd hr (hreports stop')
      | final hreply hts hrest =>
        have hlast : (s.answer call).1 = call.last (s.answer call).1.tokens stop := by
          rw [hts]
          exact hreply
        rw [hlast] at hr
        refine ⟨hr.eq_of_last, ?_, hlast, hafter.stopped hrest⟩
        rw [List.nil_append, delivered_cons, delivered_nil, List.append_nil, hts]
  | cons e before ih =>
    cases hp with
    | @cons _ first _ hrest =>
      rw [List.cons_append, delivered_cons]
      cases h.answer first with
      | onward left hne hts hreports hleft =>
        obtain ⟨hstop, hdelivered, hlater⟩ := ih hrest hleft
        exact ⟨hstop, by rw [hdelivered, hts], hlater⟩
      | final hreply hts hnone =>
        obtain ⟨hstop, hdelivered, hlater⟩ := ih hrest hnone
        exact ⟨hstop, by rw [hdelivered, hts, List.append_nil], hlater⟩

end

/-- Opens a stream over the source, or calls a stream by its number. -/
inductive Request where
  | start
  | call (stream : Nat) (call : Call)
deriving DecidableEq, Repr

/-- The replies to requests, each with the number of its stream. A call on a stream that is not open
has no reply. -/
def converse (source : Bytes) : List Request → List Stream → List (Nat × Call × Reply)
  | [], _ => []
  | .start :: requests, streams => converse source requests (streams ++ [ofSource source])
  | .call i call :: requests, streams =>
    match streams[i]? with
    | none => converse source requests streams
    | some s =>
      (i, call, (s.answer call).1) ::
        converse source requests (streams.set i (s.answer call).2)

def exchanges (i : Nat) (log : List (Nat × Call × Reply)) : List (Call × Reply) :=
  (log.filter (·.1 = i)).map (·.2)

/-- Streams are independent of each other. -/
theorem plays_exchanges (source : Bytes) (requests : List Request) (streams : List Stream)
    (i : Nat) :
    Plays (streams[i]?.getD (ofSource source))
      (exchanges i (converse source requests streams)) := by
  induction requests generalizing streams with
  | nil => exact .nil
  | cons request requests ih =>
    cases request with
    | start =>
      have hstart : (streams ++ [ofSource source])[i]?.getD (ofSource source) =
          streams[i]?.getD (ofSource source) := by
        rw [List.getElem?_append]
        split
        · rfl
        · rename_i hi
          rw [List.getElem?_eq_none (Nat.not_lt.1 hi)]
          cases i - streams.length <;> rfl
      rw [converse, ← hstart]
      exact ih _
    | call j call =>
      rw [converse]
      cases hs : streams[j]? with
      | none => exact ih streams
      | some s =>
        have hnext := ih (streams.set j (s.answer call).2)
        by_cases hj : j = i
        · subst hj
          have hlt := (List.getElem?_eq_some_iff.1 hs).1
          rw [List.getElem?_set_self hlt, Option.getD_some] at hnext
          have hcons := Plays.cons hnext
          simpa [exchanges, hs] using hcons
        · rw [List.getElem?_set_ne hj] at hnext
          simpa [exchanges, hj] using hnext

theorem holds_ofSource (source : Bytes) :
    (ofSource source).Holds (tokenize source).1 (.ofFault (tokenize source).2) :=
  holds_collect (Cursor.start source)

/-- A new stream collects the tokens of the source. -/
theorem collect_ofSource (source : Bytes) : (ofSource source).collect.1 = tokenize source := by
  obtain ⟨last, hcollect, -⟩ := (holds_ofSource source).collect
  have hfresh := congrArg Prod.fst hcollect
  rw [Stop.fault?_ofFault] at hfresh
  exact hfresh

/-- For every interleaving of calls on streams over one source: a new stream collects the tokens of
the source, and the tokens that a stream delivers over all its calls are a prefix of them. A stop is
reported only after all of them, it is the stop of the source, and every later reply is that stop
and nothing else. -/
theorem exchanges_converse (source : Bytes) (requests : List Request) (i : Nat) :
    let log := exchanges i (converse source requests [])
    let whole := tokenize source
    (ofSource source).collect.1 = whole ∧ delivered log <+: whole.1 ∧
    ∀ before call reply after stop, log = before ++ (call, reply) :: after →
      Reports call reply stop →
      stop = .ofFault whole.2 ∧ delivered (before ++ [(call, reply)]) = whole.1 ∧
        reply = call.last reply.tokens stop ∧ ∀ e ∈ after, e.2 = e.1.last [] stop := by
  intro log whole
  have hplays : Plays (ofSource source) log := plays_exchanges source requests [] i
  have hholds := holds_ofSource source
  refine ⟨collect_ofSource source, hplays.exists_rest hholds, ?_⟩
  intro before call reply after stop hlog hreports
  rw [hlog] at hplays
  obtain ⟨rfl, hrest⟩ := hplays.reports hholds hreports
  exact ⟨rfl, hrest⟩

/-- Two streams over an unterminated string. The iteration of the first stops at the bracket. -/
theorem exchanges_converse_two_streams :
    let source := ascii "(x\""
    let bracket : Token := ⟨.opening, ascii "(", ⟨0, 0, 0⟩⟩
    let name : Token := ⟨.identifier, ascii "x", ⟨1, 0, 1⟩⟩
    let e : LexError := .unexpectedEnd ⟨3, 0, 3⟩
    let requests := [.start, .start, .call 0 (.all (some 0)), .call 1 .next, .call 0 .next,
      .call 1 .collect, .call 0 .next, .call 0 (.all none), .call 0 .collect]
    let before : List (Call × Reply) :=
      [(.all (some 0), .yielded [.token bracket]), (.next, .next (.ok name))]
    let after : List (Call × Reply) :=
      [(.all none, .yielded [.fault e]), (.collect, .collected [] (some e))]
    let stop := Stop.fault e
    tokenize source = ([bracket, name], some e) ∧
      exchanges 0 (converse source requests []) =
        before ++ (.next, .next (.error stop)) :: after ∧
      exchanges 1 (converse source requests []) =
        [(.next, .next (.ok bracket)), (.collect, .collected [name] (some e))] ∧
      delivered (before ++ [(.next, .next (.error stop))]) = [bracket, name] ∧
      ∀ e ∈ after, e.2 = e.1.last [] stop := by
  intro source bracket name e requests before after stop
  have htokens : tokenize source = ([bracket, name], some e) := by decide +kernel
  have hlog : exchanges 0 (converse source requests []) =
      before ++ (.next, .next (.error stop)) :: after := by decide +kernel
  obtain ⟨-, -, hstop⟩ := exchanges_converse source requests 0
  obtain ⟨-, hdelivered, -, hlater⟩ := hstop before _ _ after stop hlog .next
  rw [htokens] at hdelivered
  exact ⟨htokens, hlog, by decide +kernel, hdelivered, hlater⟩

end Stream

end MiniScheme

import ShardStore.Proofs.Wire.Frames
/-!
What a frame tells the barrier protocol.

Agents run the barrier protocol with a handful of messages: the commands that start a stage, the
reports and arrivals the synchronizer gathers, the counts it hands out, the end of a barrier, and
the vertex lists of the graph stage. A `Signal` is what such a message means to the protocol:
its kind and, where the protocol reads them, its sender and the flag a report carries. Every
other message carries no signal.

A frame written for a message decodes, if at all, to the signal the message carries. The end of
a barrier, the commands, the counts and the arrivals decode exactly; a report or a vertex list,
whose payload ends in a list, decodes to nothing or to a message of the same sender and flag.
The messages agents push to each other are the protocol's, and so are the messages their frames
decode to.
-/

namespace ShardStore

/-- What a message means to the barrier protocol. -/
inductive Signal where
  /-- Start a single-entry round. -/
  | process
  /-- Start the graph stage. -/
  | algProcess
  /-- An agent's report to the synchronizer, with whether it wants another round. -/
  | report (sender : Address) (again : Bool)
  /-- The count of writes to expect. -/
  | dist
  /-- An agent has received what it was told to expect. -/
  | arrived (sender : Address)
  /-- The barrier is over. -/
  | endBarrier
  /-- An agent's vertex list for the graph stage. -/
  | vertices (sender : Address)
deriving DecidableEq, Repr

namespace Message

/-- The signal a message carries. -/
def signal? : Message → Option Signal
  | process _ => some .process
  | algProcess => some .algProcess
  | startBarrierWait a g _ => some (.report a g)
  | barrierMsgDist _ => some .dist
  | atBarrier a => some (.arrived a)
  | endBarrier => some .endBarrier
  | algVertices a _ => some (.vertices a)
  | _ => none

/-- The type bytes of the messages that carry a signal. -/
def signalByte (t : UInt8) : Bool :=
  t == 0xa8 || t == 0xce || t == 0xaa || t == 0xab || t == 0xad || t == 0xac || t == 0xd0

theorem isSome_signal?_eq (m : Message) : m.signal?.isSome = signalByte m.typeByte := by
  cases m <;> rfl

/-- The type bytes of the messages agents push to each other: writes, signals and round
reports. -/
def protocolByte (t : UInt8) : Bool := writeByte t || signalByte t || t == 0xcf

/-- A message of the protocol agents run among themselves. -/
def Protocol (m : Message) : Prop := protocolByte m.typeByte = true

/-- A frame written for a message of the protocol decodes, if at all, to one. -/
theorem Protocol.decode {m m' : Message} (h : m.Protocol) (hd : Message.decode m.encode = .ok m') :
    m'.Protocol := by
  unfold Protocol
  rw [typeByte_of_decode_encode hd]
  exact h

end Message

/-- The signal a frame carries: that of the message it decodes to. -/
def Signal.ofFrame? (f : Bytes) : Option Signal := (Message.decode f).toOption.bind Message.signal?

namespace Signal

theorem ofFrame?_of_decode {f : Bytes} {m : Message} (h : Message.decode f = .ok m) :
    ofFrame? f = m.signal? := by
  simp [ofFrame?, h, Except.toOption]

theorem ofFrame?_of_error {f : Bytes} {e : DecodeError} (h : Message.decode f = .error e) :
    ofFrame? f = none := by
  simp [ofFrame?, h, Except.toOption]

/-- A frame written for a message whose type carries no signal carries none. -/
theorem ofFrame?_encode_of_signalByte {m : Message} (h : Message.signalByte m.typeByte = false) :
    ofFrame? m.encode = none := by
  cases hd : Message.decode m.encode with
  | error e => exact ofFrame?_of_error hd
  | ok m' =>
    rw [ofFrame?_of_decode hd, ← Option.not_isSome_iff_eq_none, Message.isSome_signal?_eq,
      Message.typeByte_of_decode_encode hd, h]
    exact Bool.false_ne_true

theorem ofFrame?_toMessage (mu : Mutation) : ofFrame? mu.toMessage.encode = none :=
  ofFrame?_encode_of_signalByte (by cases mu <;> rfl)

theorem ofFrame?_algInternalCompute (a : Address) (active : Bool) (iter : UInt64)
    (ms : List VertexMessage) :
    ofFrame? (Message.algInternalCompute a active iter ms).encode = none :=
  ofFrame?_encode_of_signalByte rfl

theorem ofFrame?_endBarrier : ofFrame? Message.endBarrier.encode = some .endBarrier :=
  ofFrame?_of_decode (m := .endBarrier) rfl

theorem ofFrame?_process (fresh : Bool) : ofFrame? (Message.process fresh).encode = some .process :=
  ofFrame?_of_decode (m := .process fresh) (by cases fresh <;> rfl)

theorem ofFrame?_algProcess : ofFrame? Message.algProcess.encode = some .algProcess :=
  ofFrame?_of_decode (m := .algProcess) rfl

theorem ofFrame?_barrierMsgDist (e : UInt64) :
    ofFrame? (Message.barrierMsgDist e).encode = some .dist := by
  refine ofFrame?_of_decode (m := .barrierMsgDist e) ?_
  show Decoder.runAll Message.decoder (0xab :: (Bytes.ofU64 e ++ [])) = _
  simp only [Decoder.runAll, bind, StateT.bind, Except.bind, Message.decoder_cons]
  rw [show Message.bodyDecoder 0xab = (Decoder.u64 >>= fun n => pure (.barrierMsgDist n)) from rfl,
    Decoder.bind_ok (Decoder.u64_ofU64 e [])]
  rfl

theorem ofFrame?_atBarrier (a : Address) :
    ofFrame? (Message.atBarrier a).encode = some (.arrived a) := by
  refine ofFrame?_of_decode (m := .atBarrier a) ?_
  show Decoder.runAll Message.decoder (0xad :: (Encode.address a ++ [])) = _
  simp only [Decoder.runAll, bind, StateT.bind, Except.bind, Message.decoder_cons]
  rw [show Message.bodyDecoder 0xad = (Decoder.address >>= fun a => pure (.atBarrier a)) from rfl,
    Decoder.bind_ok (Decoder.address_encode a [])]
  rfl

theorem ofFrame?_startBarrierWait (a : Address) (again : Bool) (sent : List (Address × UInt64)) :
    ofFrame? (Message.startBarrierWait a again sent).encode = none ∨
      ofFrame? (Message.startBarrierWait a again sent).encode = some (.report a again) := by
  cases hd : Message.decode (Message.startBarrierWait a again sent).encode with
  | error e => exact .inl (ofFrame?_of_error hd)
  | ok m =>
    refine .inr ?_
    rw [ofFrame?_of_decode hd]
    -- the sender and the flag come first, and are read back as written
    obtain ⟨r, hm⟩ := Decoder.runAll_eq_ok hd
    simp only [Message.encode, Message.typeByte, Message.payload, List.append_assoc,
      Message.decoder_cons] at hm
    rw [show Message.bodyDecoder 0xaa = (Decoder.address >>= fun a => Decoder.bool >>= fun b =>
        Decoder.len 16 >>= fun n => Decoder.many (do
          let x ← Decoder.address
          let c ← Decoder.u64
          pure (x, c)) n >>= fun sent => pure (.startBarrierWait a b sent)) from rfl,
      Decoder.bind_ok (Decoder.address_encode a _),
      Decoder.bind_ok (Decoder.bool_encode again _)] at hm
    obtain ⟨n, r1, -, hrest⟩ := Decoder.bind_eq_ok hm
    obtain ⟨ys, r2, -, hpure⟩ := Decoder.bind_eq_ok hrest
    simp only [Decoder.pure_apply, Except.ok.injEq, Prod.mk.injEq] at hpure
    rw [← hpure.1]
    rfl

theorem ofFrame?_algVertices (a : Address) (vs : List (GraphId × VertexId)) :
    ofFrame? (Message.algVertices a vs).encode = none ∨
      ofFrame? (Message.algVertices a vs).encode = some (.vertices a) := by
  cases hd : Message.decode (Message.algVertices a vs).encode with
  | error e => exact .inl (ofFrame?_of_error hd)
  | ok m =>
    obtain ⟨n, rfl⟩ := Message.decode_algVertices hd
    exact .inr (ofFrame?_of_decode hd)

end Signal

end ShardStore

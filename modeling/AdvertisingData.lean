import AdvertisingData.Bytes
import AdvertisingData.Text.Hex
import AdvertisingData.Text.Utf8
import AdvertisingData.Text.CharLiteral
import AdvertisingData.Text.HexCodec
import AdvertisingData.Uuid
import AdvertisingData.Uuid.Text
import AdvertisingData.AdType
import AdvertisingData.TxPower
import AdvertisingData.Fault
import AdvertisingData.Flags
import AdvertisingData.Device
import AdvertisingData.Record
import AdvertisingData.Reader
import AdvertisingData.Writer
import AdvertisingData.Fields.Basic
import AdvertisingData.Fields.View
import AdvertisingData.Fields.Decode
import AdvertisingData.Fields.Encode
import AdvertisingData.Cursor
import AdvertisingData.Session
import AdvertisingData.Proofs.Framing
import AdvertisingData.Proofs.Entries
import AdvertisingData.Proofs.Decode
import AdvertisingData.Proofs.Encode
import AdvertisingData.Proofs.RoundTrip
import AdvertisingData.Proofs.Cursor
import AdvertisingData.Proofs.FirstFault
import AdvertisingData.Proofs.Reader
import AdvertisingData.Proofs.Text
import AdvertisingData.Proofs.UuidText
import AdvertisingData.Proofs.ShortForms
import AdvertisingData.Proofs.Views
import AdvertisingData.Proofs.Scratch

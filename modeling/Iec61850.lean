import Iec61850.Mms.TsduStream
import Iec61850.Mms.AssociationOrder
import Iec61850.Mms.InvokeIds
import Iec61850.Mms.Ledger
import Iec61850.Mms.EventLoss
import Iec61850.Mms.HandshakeAgreement
import Iec61850.Goose.PublishError
import Iec61850.Goose.Loss
import Iec61850.Goose.MissedStates
import Iec61850.Mms.ReportAssembly
import Iec61850.Server.RcbIntegrity
import Iec61850.Server.ControlOrder
import Iec61850.Server.SettingReadback
import Iec61850.Server.ControlTermination
import Iec61850.Server.RcbReservation
import Iec61850.Server.Outbound
import Iec61850.Server.ConfRev
import Iec61850.Client.ReportEnabling
import Iec61850.Client.Terminations
import Iec61850.Client.WholeLog
import Iec61850.Server.LogQueries
import Iec61850.Mms.Deadlines
import Iec61850.Server.FilesAgree
import Iec61850.Goose.PduRoundTrip
import Iec61850.Sv.Losses
import Iec61850.Osi.SessionReread
import Iec61850.Osi.UpperReread
import Iec61850.Mms.TypeSpecReread
import Iec61850.Scl.Binding
import Iec61850.Server.Supervision
import Iec61850.Client.DataSetServices
import Iec61850.Ber.SliceCursor
import Iec61850.Osi.Oid
import Iec61850.Common.TimeScales
import Iec61850.Server.HandleNumbers
import Iec61850.Client.Listings
import Iec61850.Server.EngineeredSettings
import Iec61850.Server.TrackedWrites
